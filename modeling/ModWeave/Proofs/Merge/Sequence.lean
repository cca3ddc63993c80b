import ModWeave.Proofs.Merge.Turn

/-! With the mod's side taken everywhere, a lane becomes what the mod's lane is, child by child. -/
namespace ModWeave

section Sequence

variable {α : Type} {before xs : List α} {gs : List Graft}

theorem graftsAt_cons (g : Graft) (gs : List Graft) (k : Nat) :
    graftsAt (g :: gs) k = if g.addition.offset = k then g.forms ++ graftsAt gs k else graftsAt gs k := by
  by_cases h : g.addition.offset = k <;> simp [graftsAt, h]

theorem graftsAt_eq_nil {k : Nat} (h : ∀ g ∈ gs, g.addition.offset ≠ k) : graftsAt gs k = [] := by
  rw [graftsAt, List.filter_eq_nil_iff.mpr (by simpa using h)]
  rfl

/-- The last one that is kept, from a kept one on, is that or one behind it. -/
private theorem getLast?_filter_of_mem_splits {p : α → Bool} {x : α} (hx : p x = true) {z : List α × α × List α}
    (hz : z ∈ splits (before ++ [x]) xs) :
    ∃ y, (z.1.filter p).getLast? = some y ∧ (y = x ∨ (y ∈ xs ∧ p y = true)) := by
  obtain ⟨pre, hpre, hxs⟩ := mem_splits.mp hz
  rw [hpre, List.append_assoc, List.filter_append, List.filter_append, List.filter_cons_of_pos hx]
  cases hy : (pre.filter p).getLast? with
  | none =>
    rw [List.getLast?_eq_none_iff] at hy
    exact ⟨x, by simp [hy], .inl rfl⟩
  | some y =>
    have hmem := List.mem_of_getLast? hy
    rw [List.mem_filter] at hmem
    refine ⟨y, by simp [List.getLast?_append, List.getLast?_cons, hy], .inr ⟨?_, hmem.2⟩⟩
    rw [hxs]
    exact List.mem_append_left _ hmem.1

/-- Elements that are kept, each with the grafts behind it, are all elements in their order. -/
private theorem map_eq_of_grafts (p : α → Bool) (made : α → Form) (place : Option α → Nat)
    (h : List.Forall₂ (fun z g => g.addition.offset = place (z.1.filter p).getLast? ∧
      solids g.forms = [made z.2.1]) ((splits before xs).filter fun z => !p z.2.1) gs)
    (hnew : ∀ x ∈ xs, p x = true → place (some x) ≠ place (before.filter p).getLast?)
    (hdistinct : (xs.filter p).Pairwise fun x y => place (some x) ≠ place (some y)) :
    xs.map made = solids (graftsAt gs (place (before.filter p).getLast?)) ++
      (xs.filter p).flatMap fun x => made x :: solids (graftsAt gs (place (some x))) := by
  induction xs generalizing before gs with
  | nil =>
    cases h
    rfl
  | cons x xs ih =>
    rw [List.forall_mem_cons] at hnew
    cases hx : p x with
    | true =>
      rw [splits, List.filter_cons_of_neg (by simp [hx])] at h
      rw [List.filter_cons_of_pos hx, List.pairwise_cons] at hdistinct
      have hlast : ((before ++ [x]).filter p).getLast? = some x := by simp [hx]
      have hrest := ih h (fun y hy hpy => by
        rw [hlast]
        exact (hdistinct.1 y (List.mem_filter.mpr ⟨hy, hpy⟩)).symm) hdistinct.2
      have hnone : graftsAt gs (place (before.filter p).getLast?) = [] := by
        refine graftsAt_eq_nil fun g hg => ?_
        obtain ⟨z, hz, hoffset, -⟩ := exists_of_forall₂_right h hg
        obtain ⟨y, hy, hmem⟩ := getLast?_filter_of_mem_splits hx (List.mem_of_mem_filter hz)
        rw [hoffset, hy]
        rcases hmem with rfl | ⟨hmem, hpy⟩
        · exact hnew.1 hx
        · exact hnew.2 y hmem hpy
      rw [hlast] at hrest
      rw [hnone, List.filter_cons_of_pos hx, List.flatMap_cons, List.map_cons, hrest]
      rfl
    | false =>
      rw [splits, List.filter_cons_of_pos (by simp [hx])] at h
      rw [List.filter_cons_of_neg (by simp [hx])] at hdistinct
      cases h with
      | @cons _ g _ gs hg hgs =>
      have hlast : ((before ++ [x]).filter p).getLast? = (before.filter p).getLast? := by simp [hx]
      have hrest := ih hgs (fun y hy hpy => by
        rw [hlast]
        exact hnew.2 y hy hpy) hdistinct
      rw [hlast] at hrest
      have hbehind : ((xs.filter p).flatMap fun y => made y :: solids (graftsAt (g :: gs) (place (some y)))) =
          (xs.filter p).flatMap fun y => made y :: solids (graftsAt gs (place (some y))) := by
        refine List.flatMap_congr fun y hy => ?_
        obtain ⟨hy, hpy⟩ := List.mem_filter.mp hy
        rw [graftsAt_cons, if_neg (hg.1 ▸ (hnew.2 y hy hpy).symm)]
      rw [List.filter_cons_of_neg (by simp [hx]), hbehind, graftsAt_cons, if_pos hg.1, List.map_cons, hrest,
        solids_append, hg.2]
      rfl

end Sequence

section Lane

variable {s : Source} {m m' : ChildMap Node} {ns : List Node} {rows : List (Node × Form)}
  {result : Node → List Form} {gs : List Graft} {lo : Nat} {q : Node × Form}

/-- Where a child of the mod's lane is put: behind the last one before it that the base has too. -/
private theorem lastKept_eq (hm : m.Indexed) (before : List (Node × Form)) :
    lastKept m (before.map Prod.fst) =
      ((before.filter fun q => m.contains q.1.signature).getLast?).bind fun q => m.get? q.1.signature := by
  induction before using List.reverseRecOn with
  | nil => rfl
  | append_singleton before q ih =>
    unfold lastKept at ih ⊢
    rw [List.map_append, List.reverse_append, List.filter_append]
    cases hget : m.get? q.1.signature with
    | some n =>
      have hkept : m.contains q.1.signature = true := hm.get?_isSome.mp (by rw [hget]; rfl)
      simp [hget, hkept]
    | none =>
      have hkept : m.contains q.1.signature = false := by
        rw [← Bool.not_eq_true, ← hm.get?_isSome, hget]
        simp
      simp only [List.map_cons, List.map_nil, List.reverse_singleton, List.singleton_append,
        List.findSome?_cons, hget, ih]
      simp [hkept]

private theorem flatMap_eq_of_forall₂ {α β γ : Type} {R : α → β → Prop} {f : α → List γ} {g : β → List γ}
    {xs : List α} {ys : List β} (h : List.Forall₂ R xs ys)
    (hR : ∀ x ∈ xs, ∀ y ∈ ys, R x y → f x = g y) : xs.flatMap f = ys.flatMap g := by
  induction h with
  | nil => rfl
  | @cons x y xs ys hxy _ ih =>
    rw [List.flatMap_cons, List.flatMap_cons, hR x List.mem_cons_self y List.mem_cons_self hxy]
    rw [ih fun x hx y hy => hR x (List.mem_cons_of_mem _ hx) y (List.mem_cons_of_mem _ hy)]

private theorem flatMap_filter_of_nil {α β : Type} {f : α → List β} {p : α → Bool} {xs : List α}
    (h : ∀ x ∈ xs, p x = false → f x = []) : (xs.filter p).flatMap f = xs.flatMap f := by
  induction xs with
  | nil => rfl
  | cons x xs ih =>
    rw [List.forall_mem_cons] at h
    cases hx : p x with
    | true => rw [List.filter_cons_of_pos hx, List.flatMap_cons, List.flatMap_cons, ih h.2]
    | false => rw [List.filter_cons_of_neg (by simp [hx]), List.flatMap_cons, h.1 hx, ih h.2]; rfl

/-- A lane of the base and one of the mod, where the mod's side is taken everywhere: a child that the mod lacks
goes, one that both have becomes what the mod has, and one that the base lacks is grafted behind the last
child before it that stays. -/
structure Adopted (s : Source) (m m' : ChildMap Node) (ns : List Node) (rows : List (Node × Form))
    (result : Node → List Form) (gs : List Graft) (lo : Nat) : Prop where
  indexed : m.Indexed
  indexed' : m'.Indexed
  nodes : ∀ n ∈ ns, n ∈ m.nodes
  listed : ∀ q ∈ rows, q.1 ∈ m'.nodes
  stays : ∀ q ∈ rows, ∀ n, m.get? q.1.signature = some n → n ∈ ns
  grafts : List.Forall₂ (fun z g => g.addition.offset =
      ((lastKept m (z.1.map Prod.fst)).map fun n => (n.span s).2).getD lo ∧ solids g.forms = [z.2.1.2])
    ((splits [] rows).filter fun z => !m.contains z.2.1.1.signature) gs
  nodup : (ns.map Node.signature).Nodup
  ends : ∀ n ∈ ns, ∀ n' ∈ ns, (n.span s).2 = (n'.span s).2 → n = n'
  front : ∀ n ∈ ns, (n.span s).2 ≠ lo
  order : (ns.map Node.signature).filter m'.contains = (rows.map (·.1.signature)).filter m.contains
  gone : ∀ n ∈ ns, m'.get? n.signature = none → result n = []
  becomes : ∀ n ∈ ns, ∀ q ∈ rows, m'.get? n.signature = some q.1 → ∃ f', result n = [f'] ∧ Agrees f' q.2
  self : ∀ q ∈ rows, Agrees q.2 q.2

/-- What stands in the merged lane for a child of the mod's. -/
def standIn (m : ChildMap Node) (result : Node → List Form) (q : Node × Form) : Form :=
  ((m.get? q.1.signature).bind fun n => (result n).head?).getD q.2

/-- Where what is added behind a child goes, or in front of all. -/
def anchor (s : Source) (m : ChildMap Node) (lo : Nat) (q : Option (Node × Form)) : Nat :=
  ((q.bind fun q => m.get? q.1.signature).map fun n => (n.span s).2).getD lo

/-- What both have, as the base has it. -/
structure Adopted.Twin (s : Source) (m m' : ChildMap Node) (ns : List Node) (result : Node → List Form) (lo : Nat)
    (q : Node × Form) (n : Node) : Prop where
  mem : n ∈ ns
  get : m.get? q.1.signature = some n
  signature : n.signature = q.1.signature
  get' : m'.get? n.signature = some q.1
  anchor_eq : anchor s m lo (some q) = (n.span s).2
  becomes : result n = [standIn m result q]
  agrees : Agrees (standIn m result q) q.2

namespace Adopted

variable (h : Adopted s m m' ns rows result gs lo)

include h

private theorem twin (hq : q ∈ rows) (hp : m.contains q.1.signature = true) :
    ∃ n, Twin s m m' ns result lo q n := by
  obtain ⟨n, hn⟩ := Option.isSome_iff_exists.mp (h.indexed.get?_isSome.mpr hp)
  have hmem := h.stays q hq n hn
  have hsig : n.signature = q.1.signature := (h.indexed.get?_eq_some.mp hn).2
  have htwin : m'.get? n.signature = some q.1 := by
    rw [h.indexed'.get?_eq_some]
    exact ⟨h.listed q hq, hsig.symm⟩
  obtain ⟨f', hf', hagrees⟩ := h.becomes n hmem q hq htwin
  have hmade : standIn m result q = f' := by simp [standIn, hn, hf']
  exact ⟨n, hmem, hn, hsig, htwin, by simp [anchor, hn], by rw [hmade, hf'], by rwa [hmade]⟩

private theorem standIn_eq (hp : m.contains q.1.signature = false) : standIn m result q = q.2 := by
  have hnone : m.get? q.1.signature = none := by
    rw [← Option.not_isSome_iff_eq_none, h.indexed.get?_isSome]
    simpa using hp
  simp [standIn, hnone]

private theorem agrees_standIn : List.Forall₂ Agrees (rows.map (standIn m result)) (rows.map Prod.snd) := by
  rw [List.forall₂_map_left_iff, List.forall₂_map_right_iff, List.forall₂_same]
  intro q hq
  cases hp : m.contains q.1.signature with
  | true =>
    obtain ⟨n, hn⟩ := h.twin hq hp
    exact hn.agrees
  | false =>
    rw [h.standIn_eq hp]
    exact h.self q hq

private theorem signatures : (ns.filter fun n => m'.contains n.signature).map Node.signature =
    (rows.filter fun q => m.contains q.1.signature).map (·.1.signature) := by
  have horder := h.order
  rw [List.filter_map, List.filter_map] at horder
  exact horder

private theorem pairs : List.Forall₂ (fun n q => n.signature = q.1.signature)
    (ns.filter fun n => m'.contains n.signature) (rows.filter fun q => m.contains q.1.signature) := by
  rw [← List.forall₂_map_left_iff (R := fun sig (q : Node × Form) => sig = q.1.signature),
    ← List.forall₂_map_right_iff (R := fun sig sig' => sig = sig'), List.forall₂_eq_eq_eq]
  exact h.signatures

private theorem grafted : List.Forall₂ (fun z g =>
      g.addition.offset = anchor s m lo (z.1.filter fun q => m.contains q.1.signature).getLast? ∧
      solids g.forms = [standIn m result z.2.1])
    ((splits [] rows).filter fun z => !m.contains z.2.1.1.signature) gs := by
  refine forall₂_imp_of_mem h.grafts fun z hz g hg => ⟨?_, ?_⟩
  · rw [hg.1, lastKept_eq h.indexed]
    rfl
  · rw [hg.2, h.standIn_eq (by simpa using (List.mem_filter.mp hz).2)]

private theorem anchor_ne (hq : q ∈ rows) (hp : m.contains q.1.signature = true) :
    anchor s m lo (some q) ≠ lo := by
  obtain ⟨n, hn⟩ := h.twin hq hp
  rw [hn.anchor_eq]
  exact h.front n hn.mem

private theorem anchors : (rows.filter fun q => m.contains q.1.signature).Pairwise fun q q' =>
    anchor s m lo (some q) ≠ anchor s m lo (some q') := by
  have hsub := h.nodup.sublist (List.Sublist.map Node.signature
    (List.filter_sublist (l := ns) (p := fun n => m'.contains n.signature)))
  rw [h.signatures, List.Nodup, List.pairwise_map] at hsub
  refine hsub.imp_of_mem fun {q q'} hq hq' hne heq => hne ?_
  obtain ⟨hq, hp⟩ := List.mem_filter.mp hq
  obtain ⟨hq', hp'⟩ := List.mem_filter.mp hq'
  obtain ⟨n, hn⟩ := h.twin hq hp
  obtain ⟨n', hn'⟩ := h.twin hq' hp'
  rw [hn.anchor_eq, hn'.anchor_eq] at heq
  rw [← hn.signature, ← hn'.signature, h.ends n hn.mem n' hn'.mem heq]

/-- What the mod lacks is no anchor. -/
private theorem graftsAt_gone {n : Node} (hn : n ∈ ns) (hnone : m'.get? n.signature = none) :
    graftsAt gs (n.span s).2 = [] := by
  refine graftsAt_eq_nil fun g hg heq => ?_
  obtain ⟨z, hz, hoffset, -⟩ := exists_of_forall₂_right h.grafted hg
  obtain ⟨pre, hpre, hall⟩ := mem_splits.mp (List.mem_of_mem_filter hz)
  cases hlast : (z.1.filter fun q => m.contains q.1.signature).getLast? with
  | none =>
    rw [hlast] at hoffset
    exact h.front n hn (heq ▸ hoffset)
  | some q =>
    rw [hlast] at hoffset
    obtain ⟨hq, hp⟩ := List.mem_filter.mp (List.mem_of_getLast? hlast)
    rw [hpre, List.nil_append] at hq
    have hq : q ∈ rows := by rw [hall]; exact List.mem_append_left _ hq
    obtain ⟨n', hn'⟩ := h.twin hq hp
    rw [h.ends n hn n' hn'.mem (by rw [← heq, hoffset, hn'.anchor_eq]), hn'.get'] at hnone
    cases hnone

/-- Only the children that the mod has leave something. -/
private theorem flatMap_eq : (ns.flatMap fun n => result n ++ solids (graftsAt gs (n.span s).2)) =
    (rows.filter fun q => m.contains q.1.signature).flatMap fun q =>
      standIn m result q :: solids (graftsAt gs (anchor s m lo (some q))) := by
  rw [← flatMap_filter_of_nil (p := fun n => m'.contains n.signature)]
  · refine flatMap_eq_of_forall₂ h.pairs fun n hn q hq hsig => ?_
    obtain ⟨hn, -⟩ := List.mem_filter.mp hn
    obtain ⟨hq, hp⟩ := List.mem_filter.mp hq
    obtain ⟨n', hn'⟩ := h.twin hq hp
    obtain rfl : n = n' := by
      have hget := h.indexed.get?_eq_some.mpr ⟨h.nodes n hn, hsig⟩
      rw [hn'.get] at hget
      exact (Option.some.inj hget).symm
    rw [hn'.becomes, hn'.anchor_eq]
    rfl
  · intro n hn hp
    have hnone : m'.get? n.signature = none := by
      rw [← Option.not_isSome_iff_eq_none, h.indexed'.get?_isSome]
      simpa using hp
    rw [h.gone n hn hnone, h.graftsAt_gone hn hnone]
    rfl

/-- With the mod's side taken everywhere a lane of the base becomes the mod's lane. -/
theorem agrees : List.Forall₂ Agrees
    (solids (graftsAt gs lo) ++ ns.flatMap fun n => result n ++ solids (graftsAt gs (n.span s).2))
    (rows.map Prod.snd) := by
  have hsequence := @map_eq_of_grafts _ [] rows gs (fun q => m.contains q.1.signature) (standIn m result)
    (anchor s m lo) h.grafted (fun _ hq hp => h.anchor_ne hq hp) h.anchors
  rw [h.flatMap_eq]
  exact hsequence ▸ h.agrees_standIn

end Adopted

end Lane

end ModWeave
