import Mathlib.Data.List.Flatten
import ModWeave.Proofs.Merge.LaneMerge

/-! The order of a merged chain of clauses. An `else` that is grafted in is the last clause exactly when
every clause of the base behind it goes. -/
namespace ModWeave

theorem elseLast_iff {fs : List Form} : elseLast fs = true ↔ fs.Pairwise fun f _ => f.isElse = false := by
  induction fs with
  | nil => simp [elseLast]
  | cons f fs ih =>
    rw [elseLast, Bool.and_eq_true, ih, List.pairwise_cons, and_congr_left_iff]
    rintro -
    cases fs with
    | nil => simp
    | cons g fs => simpa using fun h _ _ => h

private theorem related_of_pairwise {α : Type} {R : α → α → Prop} {xs : List α} (h : xs.Pairwise R) {x y : α}
    (hx : x ∈ xs) (hy : y ∈ xs) (hne : x ≠ y) : R x y ∨ R y x := by
  let S (x y : α) : Prop := R x y ∨ R y x
  have : Std.Symm S := ⟨fun _ _ => Or.symm⟩
  exact (h.imp (S := S) Or.inl).forall hx hy hne

namespace LaneMerge

variable {w : Settlement} {path : List String} {m m' : ChildMap Node} {clause : Bool} {i lo : Nat}
  {fs fs' woven : List Form} {ns : List Node} {rows all : Rows} {part : Node → Changes}
  {result : Node → List Form} {gs : List Graft} {g : Graft} {n : Node} {f : Form}

/-- A merged lane is in order inside of its children exactly when what is added there keeps order. -/
theorem ordered_iff (h : LaneMerge w path m m' clause i lo fs fs' ns rows all part result gs)
    (hscript : w.language = .script) (ho : Outcome fs ns w.base.source gs result woven) :
    orderedAll (graftsAt gs lo ++ woven) = true ↔ ∀ n ∈ ns, ∀ a ∈ (part n).additions, w.Clear a := by
  have hgrafts {k : Nat} {f : Form} (hf : f ∈ graftsAt gs k) : f.ordered = true := by
    obtain ⟨g, hg, -, hf⟩ := mem_graftsAt hf
    obtain ⟨z, -, hgraft, -⟩ := h.place hg
    exact (h.sound' f (hgraft.mem f hf)).2.2
  rw [orderedAll_iff]
  constructor
  · intro hordered n hn
    obtain ⟨k, f, -, -, hfate⟩ := h.fates n hn
    exact (hfate.ordered hscript).mp fun f' hf' =>
      hordered f' (List.mem_append_right _ (ho.mem_of_result hn hf'))
  · intro hclear f hf
    rcases List.mem_append.mp hf with hf | hf
    · exact hgrafts hf
    · rcases ho.mem f hf with ⟨-, hstray⟩ | ⟨n, hn, hf | hf⟩
      · cases f with
        | stray => rfl
        | leaf | block => cases hstray
      · obtain ⟨k, f₀, -, -, hfate⟩ := h.fates n hn
        exact (hfate.ordered hscript).mpr (hclear n hn) f hf
      · exact hgrafts hf

/-- What is grafted in at one place stands there in the order of the mod. -/
private theorem graftsAt_sublist (h : LaneMerge w path m m' clause i lo fs fs' ns rows all part result gs)
    (k : Nat) : (solids (graftsAt gs k)).Sublist (solids fs') := by
  have hforms : solids (gs.flatMap Graft.forms) =
      ((splits [] rows).filter fun z => !m.contains z.2.1.1.signature).map (·.2.1.2) := by
    have hgrafts := h.grafts
    generalize (splits [] rows).filter (fun z => !m.contains z.2.1.1.signature) = zs at hgrafts
    clear h
    induction hgrafts with
    | nil => rfl
    | cons hz _ ih => rw [List.flatMap_cons, solids_append, hz.solids, ih]; rfl
  have hrows : (splits [] rows).map (·.2.1.2) = solids fs' := by
    rw [← h.mod.forms, ← map_splits [] rows, List.map_map, map_splits]
    rfl
  rw [← hrows]
  refine ((List.filter_sublist.flatMap Graft.forms).filter Form.isSolid).trans ?_
  change (solids (gs.flatMap Graft.forms)).Sublist _
  rw [hforms]
  exact List.filter_sublist.map _

end LaneMerge

/-- A lane of clauses, the `else` being the last one on both sides. -/
structure ChainMerge (w : Settlement) (path : List String) (m m' : ChildMap Node) (i lo : Nat)
    (fs fs' : List Form) (ns : List Node) (rows all : Rows) (part : Node → Changes)
    (result : Node → List Form) (gs : List Graft) : Prop extends
    LaneMerge w path m m' true i lo fs fs' ns rows all part result gs where
  cuts : w.base.source.Cuts w.language
  start : ∀ n ∈ ns, lo ≤ (n.span w.base.source).1
  last : elseLast fs = true
  last' : elseLast fs' = true
  told : ∀ n ∈ ns, n.kind = .otherwise ↔ n.signature = "else"
  told' : ∀ q ∈ rows, q.2.isElse = true ↔ q.1.signature = "else"

namespace ChainMerge

variable {w : Settlement} {path : List String} {m m' : ChildMap Node} {i lo : Nat}
  {fs fs' woven : List Form} {ns : List Node} {rows all : Rows} {part : Node → Changes}
  {result : Node → List Form} {gs : List Graft} {g : Graft} {n : Node} {f : Form}

private theorem result_isElse (h : ChainMerge w path m m' i lo fs fs' ns rows all part result gs) (hn : n ∈ ns)
    (hf : f ∈ result n) : f.isElse = (n.kind == .otherwise) := by
  obtain ⟨k, f₀, -, hstand, hfate⟩ := h.fates n hn
  rw [(hfate.sound f hf).2.2, hstand.isElse]

/-- Only the last clause of the base is an `else`. -/
private theorem kinds (h : ChainMerge w path m m' i lo fs fs' ns rows all part result gs) :
    ns.Pairwise fun n _ => (n.kind == .otherwise) = false := by
  have hall := h.base.forall₂
  have hlast := (elseLast_iff.mp h.last).filter Form.isSolid
  change (solids fs).Pairwise _ at hlast
  generalize solids fs = gs at hall hlast
  clear h
  induction hall with
  | nil => exact .nil
  | @cons f n gs ns hf hrest ih =>
    obtain ⟨k, hf⟩ := hf
    rw [List.pairwise_cons] at hlast
    refine .cons (fun n' hn' => ?_) (ih hlast.2)
    obtain ⟨f', hf', -⟩ := exists_of_forall₂_right hrest hn'
    rw [hf.isElse]
    exact hlast.1 f' hf'

/-- Nothing is grafted in behind an `else`, nor behind a clause that goes. -/
private theorem stays_of_graft (h : ChainMerge w path m m' i lo fs fs' ns rows all part result gs) (hn : n ∈ ns)
    (hg : g ∈ gs) (hoffset : g.addition.offset = (n.span w.base.source).2) :
    (n.kind == .otherwise) = false ∧ result n ≠ [] := by
  have hlt := (h.base.bytes h.cuts hn).2.1
  have hstart := h.start n hn
  obtain ⟨z, hz, -, heq | ⟨n', hn', heq, q, hq, htwin⟩⟩ := h.place hg
  · omega
  obtain rfl : n = n' := h.base.eq_of_ends h.cuts hn hn' (hoffset.symm.trans heq)
  constructor
  · -- the `else` of the mod would stand in front of the clause that is grafted in
    obtain ⟨pre, hpre, hall⟩ := mem_splits.mp hz
    rw [List.nil_append] at hpre
    have hlast := (elseLast_iff.mp h.last').filter Form.isSolid
    change (solids fs').Pairwise _ at hlast
    rw [← h.mod.forms, List.pairwise_map, hall, ← hpre, List.pairwise_append] at hlast
    have helse : q.2.isElse = false := hlast.2.2 q hq z.2.1 List.mem_cons_self
    have hmem : q ∈ rows := by rw [hall, ← hpre]; exact List.mem_append_left _ hq
    rw [← Bool.not_eq_true, beq_iff_eq, h.told n hn, ← (h.indexed'.get?_eq_some.mp htwin).2,
      ← h.told' q hmem, helse]
    simp
  · obtain ⟨k, f, -, -, hfate⟩ := h.fates n hn
    rw [ne_eq, hfate.gone, htwin]
    simp

/-- What is grafted in is an `else` when the addition is one. -/
private theorem form_of_graft (h : ChainMerge w path m m' i lo fs fs' ns rows all part result gs)
    (hg : g ∈ gs) : ∃ f, solids g.forms = [f] ∧ (f.isElse = true ↔ g.addition.signature = "else") := by
  obtain ⟨z, hz, hgraft, -⟩ := h.place hg
  have hmem : z.2.1 ∈ rows := map_splits [] rows ▸ List.mem_map_of_mem hz
  exact ⟨z.2.1.2, hgraft.solids, by rw [h.told' z.2.1 hmem, hgraft.signature]⟩

private theorem graft_of_form (h : ChainMerge w path m m' i lo fs fs' ns rows all part result gs) {k : Nat}
    (hf : f ∈ solids (graftsAt gs k)) : ∃ g ∈ gs, g.addition.offset = k ∧
      (f.isElse = true ↔ g.addition.signature = "else") := by
  obtain ⟨hf, hsolid⟩ := List.mem_filter.mp hf
  obtain ⟨g, hg, hk, hf⟩ := mem_graftsAt hf
  obtain ⟨f', hf', helse⟩ := h.form_of_graft hg
  have hmem : f ∈ solids g.forms := List.mem_filter.mpr ⟨hf, hsolid⟩
  rw [hf', List.mem_singleton] at hmem
  exact ⟨g, hg, hk, hmem ▸ helse⟩

private theorem mem_solids_graftsAt (hg : g ∈ gs) (hf : f ∈ solids g.forms) :
    f ∈ solids (graftsAt gs g.addition.offset) := by
  obtain ⟨hf, hsolid⟩ := List.mem_filter.mp hf
  exact List.mem_filter.mpr ⟨List.mem_flatMap.mpr ⟨g, List.mem_filter.mpr ⟨hg, by simp⟩, hf⟩, hsolid⟩

/-- In a merged chain the `else` is the last clause exactly when every clause of the base that an added
`else` is put in front of goes. -/
theorem elseLast_iff_gone (h : ChainMerge w path m m' i lo fs fs' ns rows all part result gs)
    (ho : Outcome fs ns w.base.source gs result woven) :
    elseLast (graftsAt gs lo ++ woven) = true ↔ ∀ g ∈ gs, g.addition.signature = "else" →
      ∀ n ∈ ns, g.addition.offset ≤ (n.span w.base.source).1 → result n = [] := by
  have hsolid : solids (graftsAt gs lo ++ woven) = graftsAt gs lo ++ woven :=
    List.filter_eq_self.mpr fun f hf => Form.isSolid_of_isClause (h.sound ho f hf).2
  rw [elseLast_iff, ← hsolid, solids_append, ho.solids, List.pairwise_append, List.pairwise_flatMap]
  constructor
  · rintro ⟨-, ⟨-, hblocks⟩, hfront⟩ g hg hsig n hn hle
    by_contra hne
    obtain ⟨f', hf'⟩ := List.exists_mem_of_ne_nil _ hne
    obtain ⟨f, hf, helse⟩ := h.form_of_graft hg
    have hmem := mem_solids_graftsAt hg (f := f) (by simp [hf])
    have hlt := (h.base.bytes h.cuts hn).2.1
    have hcontra : f.isElse = false := by
      obtain ⟨-, -, -, heq | ⟨n₀, hn₀, heq, -⟩⟩ := h.place hg
      · rw [heq] at hmem
        exact hfront f hmem f' (List.mem_flatMap.mpr ⟨n, hn, List.mem_append_left _ hf'⟩)
      · rw [heq] at hmem hle
        have hne : n₀ ≠ n := by
          rintro rfl
          omega
        rcases related_of_pairwise ((h.base.ends h.cuts).and hblocks) hn₀ hn hne with ⟨-, hcross⟩ | ⟨hends, -⟩
        · exact hcross f (List.mem_append_right _ hmem) f' (List.mem_append_left _ hf')
        · omega
    rw [helse.mpr hsig] at hcontra
    cases hcontra
  · intro hgone
    -- behind an `else` that is grafted in nothing is left
    have hbehind {f f' : Form} {k : Nat} {n : Node} (hf : f ∈ solids (graftsAt gs k)) (hn : n ∈ ns)
        (hle : k ≤ (n.span w.base.source).1)
        (hf' : f' ∈ result n ++ solids (graftsAt gs (n.span w.base.source).2)) : f.isElse = false := by
      rw [← Bool.not_eq_true]
      intro helse
      obtain ⟨g, hg, rfl, hiff⟩ := h.graft_of_form hf
      have hnil := hgone g hg (hiff.mp helse) n hn hle
      rcases List.mem_append.mp hf' with hf' | hf'
      · simp [hnil] at hf'
      · obtain ⟨g', hg', hoffset, -⟩ := h.graft_of_form hf'
        exact (h.stays_of_graft hn hg' hoffset).2 hnil
    have hplace (k : Nat) : (solids (graftsAt gs k)).Pairwise fun f _ => f.isElse = false :=
      ((elseLast_iff.mp h.last').filter Form.isSolid).sublist (h.graftsAt_sublist k)
    refine ⟨hplace lo, ⟨fun n hn => ?_, ?_⟩, fun f hf f' hf' => ?_⟩
    · rw [List.pairwise_append]
      refine ⟨?_, hplace _, fun f hf f' hf' => ?_⟩
      · obtain ⟨k, f₀, -, -, hfate⟩ := h.fates n hn
        have hsingle := hfate.single
        match result n, hsingle with
        | [], _ => exact .nil
        | [f], _ => exact List.pairwise_singleton _ _
      · obtain ⟨g, hg, hoffset, -⟩ := h.graft_of_form hf'
        rw [h.result_isElse hn hf]
        exact (h.stays_of_graft hn hg hoffset).1
    · refine ((h.base.ends h.cuts).and h.kinds).imp_of_mem fun {n n'} hn hn' hnn' f hf f' hf' => ?_
      rcases List.mem_append.mp hf with hf | hf
      · rw [h.result_isElse hn hf]
        exact hnn'.2
      · exact hbehind hf hn' hnn'.1.1 hf'
    · obtain ⟨n, hn, hf'⟩ := List.mem_flatMap.mp hf'
      exact hbehind hf hn (h.start n hn) hf'

end ChainMerge

end ModWeave
