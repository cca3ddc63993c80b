import ModWeave.Proofs.Merge.Sequence

/-! The children of the mod with their forms, lane by lane, and the grafts of those that the base lacks. -/
namespace ModWeave

section Splits

variable {α β : Type}

theorem splits_append (before xs ys : List α) : splits before (xs ++ ys) =
    (splits before xs).map (fun z => (z.1, z.2.1, z.2.2 ++ ys)) ++ splits (before ++ xs) ys := by
  induction xs generalizing before with
  | nil => simp [splits]
  | cons x xs ih => simp [splits, ih]

theorem splits_map (f : α → β) (before xs : List α) : splits (before.map f) (xs.map f) =
    (splits before xs).map fun z => (z.1.map f, f z.2.1, z.2.2.map f) := by
  induction xs generalizing before with
  | nil => rfl
  | cons x xs ih =>
    have h := ih (before ++ [x])
    rw [List.map_append] at h
    simp only [List.map_cons, splits]
    rw [← h]
    rfl

theorem splits_front (front before xs : List α) : splits (front ++ before) xs =
    (splits before xs).map fun z => (front ++ z.1, z.2.1, z.2.2) := by
  induction xs generalizing before with
  | nil => rfl
  | cons x xs ih => rw [splits, splits, List.map_cons, List.append_assoc, ih]

end Splits

/-- Nodes with the forms that they stand for. -/
abbrev Rows := List (Node × Form)

section Lane

variable {l : Language} {t : Source} {j lo : Nat} {fs : List Form} {ns : List Node} {rows : Rows}
  {p : Counterparts} {path : List String} {as : List Addition}

/-- The rows of a lane: its nodes, each with its form. -/
structure RowsOf (l : Language) (t : Source) (fs : List Form) (ns : List Node) (rows : Rows) : Prop where
  nodes : rows.map Prod.fst = ns
  forms : rows.map Prod.snd = solids fs
  standing : ∀ q ∈ rows, ∃ k, Standing l t k q.2 q.1

theorem StandingAll.exists_rows (h : StandingAll l t j fs ns) : ∃ rows, RowsOf l t fs ns rows := by
  have hall := h.forall₂
  have hlen := hall.length_eq
  refine ⟨ns.zip (solids fs), ?_, ?_, fun q hq => ?_⟩
  · rw [List.map_fst_zip (Nat.le_of_eq hlen.symm)]
  · rw [List.map_snd_zip (Nat.le_of_eq hlen)]
  · clear hlen h
    generalize solids fs = gs at hall hq
    induction hall with
    | nil => cases hq
    | cons hf _ ih =>
      rcases List.mem_cons.mp hq with rfl | hq
      · exact hf
      · exact ih hq

/-- What is grafted in for a child that the base lacks, given with its siblings in its lane. -/
structure LaneGraft (l : Language) (s : Source) (m : ChildMap Node) (lo : Nat) (path : List String)
    (lane : List Form) (z : Rows × (Node × Form) × Rows) (g : Graft) : Prop where
  offset : g.addition.offset = ((lastKept m (z.1.map Prod.fst)).map fun n => (n.span s).2).getD lo
  solids : solids g.forms = [z.2.1.2]
  reads : l.Reads g.addition.text (lexemesAll g.forms)
  mem : ∀ f ∈ g.forms, f ∈ lane
  signature : g.addition.signature = z.2.1.1.signature
  parent : g.addition.parent = path

private theorem exists_grafts_of_forall₂ {α : Type} {R : α → Addition → Prop} {S : α → Graft → Prop}
    {zs : List α} (h : List.Forall₂ R zs as) (hR : ∀ z ∈ zs, ∀ a, R z a → ∃ g, g.addition = a ∧ S z g) :
    ∃ gs, gs.map Graft.addition = as ∧ List.Forall₂ S zs gs := by
  induction h with
  | nil => exact ⟨[], rfl, .nil⟩
  | cons ha _ ih =>
    rw [List.forall_mem_cons] at hR
    obtain ⟨g, rfl, hg⟩ := hR.1 _ ha
    obtain ⟨gs, rfl, hgs⟩ := ih hR.2
    exact ⟨g :: gs, rfl, .cons hg hgs⟩

/-- The additions of one lane as grafts. `front` and `back` are the children of the other lane. -/
theorem exists_laneGrafts {front back : List Node} (hs : p.modSource.Cuts l)
    (hlane : StandingAll l p.modSource j fs ns) (hrows : RowsOf l p.modSource fs ns rows)
    (hsame : ∀ q ∈ rows, ∀ q' ∈ rows, q'.1.kind.isClause = q.1.kind.isClause)
    (hfront : ∀ q ∈ rows, ∀ n ∈ front, n.kind.isClause ≠ q.1.kind.isClause)
    (hback : ∀ q ∈ rows, ∀ n ∈ back, n.kind.isClause ≠ q.1.kind.isClause)
    (hfrom : ∀ q ∈ rows, LaneFrom p q.1 j lo)
    (h : List.Forall₂ (fun z a => AdditionOf p path
        (front ++ z.1.map Prod.fst, z.2.1.1, z.2.2.map Prod.fst ++ back) a)
      ((splits [] rows).filter fun z => !p.baseChildren.contains z.2.1.1.signature) as) :
    ∃ gs, gs.map Graft.addition = as ∧ List.Forall₂ (LaneGraft l p.baseSource p.baseChildren lo path fs)
      ((splits [] rows).filter fun z => !p.baseChildren.contains z.2.1.1.signature) gs := by
  refine exists_grafts_of_forall₂ h fun z hz a ha => ?_
  obtain ⟨pre, hpre, hall⟩ := mem_splits.mp (List.mem_of_mem_filter hz)
  rw [List.nil_append] at hpre
  obtain rfl := hpre
  have hmem : z.2.1 ∈ rows := by rw [hall]; simp
  have hfilter (b : List (Node × Form)) (hb : ∀ q ∈ b, q ∈ rows) :
      (b.map Prod.fst).filter z.2.1.1.sharesLane = b.map Prod.fst := by
    refine List.filter_eq_self.mpr fun n hn => ?_
    obtain ⟨q, hq, rfl⟩ := List.mem_map.mp hn
    exact beq_iff_eq.mpr (hsame z.2.1 hmem q (hb q hq))
  have hbefore : (front ++ z.1.map Prod.fst).filter z.2.1.1.sharesLane = z.1.map Prod.fst := by
    have hnone : front.filter z.2.1.1.sharesLane = [] :=
      List.filter_eq_nil_iff.mpr fun n hn => by simpa [Node.sharesLane] using hfront z.2.1 hmem n hn
    rw [List.filter_append, hnone, List.nil_append]
    exact hfilter z.1 fun q hq => by rw [hall]; exact List.mem_append_left _ hq
  have hafter : (z.2.2.map Prod.fst ++ back).filter z.2.1.1.sharesLane = z.2.2.map Prod.fst := by
    have hnone : back.filter z.2.1.1.sharesLane = [] :=
      List.filter_eq_nil_iff.mpr fun n hn => by simpa [Node.sharesLane] using hback z.2.1 hmem n hn
    rw [List.filter_append, hnone, List.append_nil]
    exact hfilter z.2.2 fun q hq => by
      rw [hall]
      exact List.mem_append_right _ (List.mem_cons_of_mem _ hq)
  have hstanding : StandingAll l p.modSource j fs (z.1.map Prod.fst ++ z.2.1.1 :: z.2.2.map Prod.fst) := by
    have hnodes := hrows.nodes
    rw [hall, List.map_append, List.map_cons] at hnodes
    rwa [hnodes]
  obtain ⟨hoffset, g, forms, hindex, hgraft⟩ := (placement_cases ha.placed).graft hs
    (by rw [hbefore, hafter]; exact hstanding) (hfrom z.2.1 hmem)
  rw [hbefore] at hoffset hindex
  have hform : g = z.2.1.2 := by
    rw [← hrows.forms, hall, List.length_map, List.map_append,
      List.getElem?_append_right (by simp), List.length_map, Nat.sub_self] at hindex
    exact (Option.some.inj hindex).symm
  exact ⟨⟨a, forms⟩, rfl, hoffset, by rw [hgraft.solids, hform], hgraft.reads, hgraft.mem, ha.signature,
    ha.parent⟩

end Lane

end ModWeave
