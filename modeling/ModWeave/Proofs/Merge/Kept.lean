import ModWeave.Proofs.Merge.Edits

/-! Keeping the base everywhere: what the mod adds still goes in, and nothing that the base has goes. -/
namespace ModWeave
open Text

namespace Text

theorem takeBytes?_eq_some {n : Nat} {cs kept : List Char} (h : takeBytes? n cs = some kept) :
    ∃ rest, dropBytes? n cs = some rest ∧ cs = kept ++ rest := by
  fun_induction takeBytes? n cs generalizing kept with
  | case1 cs =>
    cases h
    exact ⟨cs, by rw [dropBytes?], rfl⟩
  | case2 => cases h
  | case3 n c cs hle ih =>
    obtain ⟨kept, hkept, rfl⟩ := Option.map_eq_some_iff.mp h
    obtain ⟨rest, hrest, rfl⟩ := ih hkept
    exact ⟨rest, by rw [dropBytes?, if_pos hle, hrest], rfl⟩
  | case4 => cases h

theorem dropBytes?_add {m n : Nat} {cs ds : List Char} (h : dropBytes? m cs = some ds) :
    dropBytes? (m + n) cs = dropBytes? n ds := by
  fun_induction dropBytes? m cs with
  | case1 cs =>
    cases h
    rw [Nat.zero_add]
  | case2 => cases h
  | case3 m c cs hle ih =>
    rw [show m + 1 + n = m + n + 1 by omega, dropBytes?, if_pos (by omega), ← ih h]
    congr 1
    omega
  | case4 => cases h

/-- A slice and what is behind it are what is behind the start of the slice. -/
theorem append_of_slice? {cs kept rest : List Char} {start stop : Nat}
    (h : slice? cs start stop = some kept) (hrest : dropBytes? start cs = some rest) :
    ∃ after, dropBytes? stop cs = some after ∧ rest = kept ++ after := by
  unfold slice? at h
  split at h
  · rename_i hle
    rw [hrest, Option.bind_some] at h
    obtain ⟨after, hafter, rfl⟩ := takeBytes?_eq_some h
    refine ⟨after, ?_, rfl⟩
    rw [← hafter, ← dropBytes?_add hrest, Nat.add_sub_cancel' hle]
  · cases h

end Text

/-- Nothing is cut where text is only put in. -/
theorem sublist_of_splice {text rest out : List Char} {cursor : Nat} {es : List Edit}
    (hes : ∀ e ∈ es, e.stop = e.start) (hrest : dropBytes? cursor text = some rest)
    (h : splice text cursor es = .ok out) : rest.Sublist out := by
  induction es generalizing cursor rest out with
  | nil =>
    rw [splice, hrest] at h
    cases h
    exact List.Sublist.refl _
  | cons e es ih =>
    rw [List.forall_mem_cons] at hes
    rw [splice] at h
    split at h
    · cases h
    · split at h
      · cases h
      · rename_i kept hkept
        obtain ⟨after, hafter, rfl⟩ := append_of_slice? hkept hrest
        cases hmore : splice text e.stop es with
        | error e => rw [hmore] at h; cases h
        | ok more =>
          rw [hmore] at h
          cases h
          dsimp only
          have hsub : after.Sublist more := ih hes.2 (hes.1 ▸ hafter) hmore
          rw [List.append_assoc kept]
          exact (hsub.trans (List.sublist_append_right e.replacement more)).append_left kept

section Kept

variable {l : Language} {text text' : List Char} {base mod : Tree} {names : SourceNames} {c : Changes}

/-- With the base kept everywhere, only additions are carried out. -/
theorem Changes.edits_of_kept (c : Changes) :
    (c.settledBy fun _ => .keepBase).edits = .ok (c.additions.map Addition.edit) := by
  have hnone : (c.conflicts.map fun r => r.resolve .keepBase).mapM Conflict.edit =
      .ok (c.conflicts.map fun _ => Option.none) := by
    refine mapM_of_forall₂ (List.forall₂_map_left_iff.mpr (List.forall₂_map_right_iff.mpr ?_))
    exact List.forall₂_same.mpr fun r _ => rfl
  rw [Changes.edits, Changes.settledBy, hnone]
  change Except.ok _ = _
  rw [List.filterMap_map]
  simp

/-- With the base kept everywhere, the merged text is the text of the base with the additions put in. -/
theorem materialize_of_kept (hbase : l.parse text = .ok base) (hmod : l.parse text' = .ok mod)
    (h : diff names base mod = some c) : ∃ out,
      materialize base (c.settledBy fun _ => .keepBase) = .ok out ∧ text.Sublist out ∧
      (c.additions = [] → out = text) := by
  have hb := Language.wellFormed_of_parse hbase
  have hm := Language.wellFormed_of_parse hmod
  have hplaced := placedAt_of_diff hb hm h
  have htext : base.source.text = text := Language.text_of_parse hbase
  have hmem {e : Edit} (he : e ∈ (c.additions.map Addition.edit).mergeSort Edit.notAfter) :
      ∃ a ∈ c.additions, a.edit = e := by
    rwa [List.mem_mergeSort, List.mem_map] at he
  have hfits : ∀ e ∈ c.additions.map Addition.edit, e.Fits base.source := by
    intro e he
    obtain ⟨a, ha, rfl⟩ := List.mem_map.mp he
    exact (hplaced a ha).fits hb
  obtain ⟨out, hout⟩ := splice_of_beside hfits
    (List.pairwise_map.mpr (List.pairwise_of_forall fun a b => Nat.le_total _ _))
  have hmade : materialize base (c.settledBy fun _ => .keepBase) = .ok out := by
    rw [materialize, Changes.edits_of_kept]
    exact hout
  rw [htext] at hout
  refine ⟨out, hmade, sublist_of_splice (fun e he => ?_) (by rw [dropBytes?]) hout, fun hnone => ?_⟩
  · obtain ⟨a, -, rfl⟩ := hmem he
    rfl
  · rw [hnone, List.map_nil, List.mergeSort_nil, splice, dropBytes?] at hout
    exact (Except.ok.inj hout).symm

end Kept

end ModWeave
