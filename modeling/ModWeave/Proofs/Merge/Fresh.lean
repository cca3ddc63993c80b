import ModWeave.Proofs.Merge.Turn
import ModWeave.Proofs.Tree.Roll

/-! In what two containers are merged to nothing is redefined: a construct that others would replace is
known by its tag on either side, and what is merged is told apart by the signatures it has there. -/
namespace ModWeave

variable {l : Language} {s t : Source} {text text' : List Char} {i k j k' : Nat} {f : Form}
  {fs body clauses body' clauses' : List Form} {n : Node} {m m' : ChildMap Node} {ns cs ns' cs' : List Node}
  {sig : String}

namespace Lanes

/-- The children stand for the forms of both lanes, one by one. -/
theorem forall₂ (h : Lanes l s i k body clauses m ns cs) :
    List.Forall₂ (fun f n => ∃ j, Standing l s j f n) (solids (body ++ clauses)) m.nodes := by
  rw [solids_append, h.nodes]
  exact List.rel_append h.statements.forall₂ h.chain.forall₂

theorem admits (h : Lanes l s i k body clauses m ns cs) (hs : l.source text = .ok s) :
    ∀ label ∈ labelsOf body ++ labelsOf clauses, l.Admits label := by
  intro label hlabel
  rw [← labelsOf_append, ← labelsOf_solids] at hlabel
  obtain ⟨f, hf, hlabel⟩ := List.mem_filterMap.mp hlabel
  obtain ⟨n, -, j, hstand⟩ := exists_of_forall₂_left h.forall₂ hf
  exact Language.Sound.admits hstand.sound hlabel hs hstand.spells

private theorem mem_zip_of_standing (h : List.Forall₂ (fun f n => ∃ j, Standing l s j f n) fs ns)
    (hn : n ∈ ns) (hstand : Standing l s j f n) : ∃ label, f.label? = some label ∧
      (n.signature, label) ∈ (ns.map Node.signature).zip (labelsOf fs) := by
  induction h with
  | nil => cases hn
  | @cons g m fs ns hg _ ih =>
    obtain ⟨j', hg⟩ := hg
    obtain ⟨label, hlabel⟩ := Option.isSome_iff_exists.mp hg.isSolid
    rw [labelsOf_cons, hlabel, Option.toList_some, List.singleton_append, List.map_cons, List.zip_cons_cons]
    rcases List.mem_cons.mp hn with rfl | hn
    · refine ⟨label, ?_, List.mem_cons_self⟩
      rw [hstand.label_eq hg hstand.depicts.keyed.sameContent_refl, hlabel]
    · obtain ⟨label', hlabel', hmem⟩ := ih hn
      exact ⟨label', hlabel', List.mem_cons_of_mem _ hmem⟩

/-- A child is known by the key that goes with the label of its form. -/
theorem mem_roll (h : Lanes l s i k body clauses m ns cs) (hn : n ∈ m.nodes) (hstand : Standing l s j f n) :
    ∃ label, f.label? = some label ∧ (n.signature, label) ∈ roll (labelsOf body ++ labelsOf clauses) := by
  have := mem_zip_of_standing h.forall₂ hn hstand
  rw [labelsOf_solids, labelsOf_append] at this
  rwa [roll, ← h.keys]

end Lanes

/-- What is merged has the label that goes with its signature on one side. -/
theorem ComesFrom.mem_roll (base : Lanes l s i k body clauses m ns cs) (mod : Lanes l t j k' body' clauses' m' ns' cs')
    (h : ComesFrom l s t m m' sig f) : ∃ label, f.label? = some label ∧
      ((sig, label) ∈ roll (labelsOf body ++ labelsOf clauses) ∨
        (sig, label) ∈ roll (labelsOf body' ++ labelsOf clauses')) := by
  cases h with
  | kept n found standing =>
    obtain ⟨hn, rfl⟩ := base.indexed.get?_eq_some.mp found
    obtain ⟨label, hlabel, hmem⟩ := base.mem_roll hn standing
    exact ⟨label, hlabel, .inl hmem⟩
  | taken twin found standing =>
    obtain ⟨htwin, rfl⟩ := mod.indexed.get?_eq_some.mp found
    obtain ⟨label, hlabel, hmem⟩ := mod.mem_roll htwin standing
    exact ⟨label, hlabel, .inr hmem⟩
  | inside n twin found found' differ standing =>
    obtain ⟨hn, rfl⟩ := base.indexed.get?_eq_some.mp found
    obtain ⟨label, hlabel, hmem⟩ := base.mem_roll hn standing
    exact ⟨label, hlabel, .inl hmem⟩

/-- On either side a construct that others would replace is known by its tag. -/
theorem ComesFrom.tag_of_replaces (base : Lanes l s i k body clauses m ns cs)
    (mod : Lanes l t j k' body' clauses' m' ns' cs') (hs : l.source text = .ok s) (ht : l.source text' = .ok t)
    (h : ComesFrom l s t m m' sig f) : ∃ label, f.label? = some label ∧ l.Admits label ∧
      (label.kind.repetition = .replaces → sig = label.tag 0) := by
  obtain ⟨label, hlabel, hmem | hmem⟩ := h.mem_roll base mod
  · exact ⟨label, hlabel, base.admits hs label (List.of_mem_zip hmem).2,
      key_of_replaces (base.admits hs) base.fresh hmem⟩
  · exact ⟨label, hlabel, mod.admits ht label (List.of_mem_zip hmem).2,
      key_of_replaces (mod.admits ht) mod.fresh hmem⟩

private theorem sizeOf_append (fs gs : List Form) : sizeOf (fs ++ gs) + 1 = sizeOf fs + sizeOf gs := by
  induction fs with
  | nil => simp +arith
  | cons f fs ih =>
    rw [List.cons_append, List.cons.sizeOf_spec, List.cons.sizeOf_spec]
    omega

mutual

theorem Blends.fresh {l : Language} {s t : Source} {text text' : List Char} {m m' : ChildMap Node}
    {fs : List Form} (hs : l.source text = .ok s) (ht : l.source text' = .ok t) (h : Blends l s t m m' fs) :
    anyRedefines fs = false ∧ labelsRedefine .empty 0 (labelsOf fs) = false := by
  cases h with
  | intro rows base mod made apart covers each =>
  have hrows : ∀ p ∈ rows, p.2.redefines = false := by
    intro p hp
    have hmem : p.2 ∈ fs := List.mem_of_mem_filter (made ▸ List.mem_map_of_mem hp)
    have := List.sizeOf_lt_of_mem hmem
    exact (each p hp).redefines hs ht
  refine ⟨anyRedefines_iff.mpr fun f hf => ?_, ?_⟩
  · cases hsolid : f.isSolid with
    | false =>
      cases f with
      | stray => rfl
      | leaf | block => cases hsolid
    | true =>
      have hmem : f ∈ rows.map Prod.snd := made ▸ List.mem_filter.mpr ⟨hf, hsolid⟩
      obtain ⟨p, hp, rfl⟩ := List.mem_map.mp hmem
      exact hrows p hp
  · have hlabels : labelsOf fs = rows.filterMap fun p => p.2.label? := by
      rw [← labelsOf_solids, ← made, labelsOf, List.filterMap_map]
      rfl
    rw [hlabels]
    refine labelsRedefine_of_apart (l := l) (fun label hlabel => ?_) ?_
    · obtain ⟨p, hp, hlabel⟩ := List.mem_filterMap.mp hlabel
      obtain ⟨label', hlabel', hadmits, -⟩ := (each p hp).tag_of_replaces base mod hs ht
      rw [hlabel] at hlabel'
      cases hlabel'
      exact hadmits
    · refine List.pairwise_filterMap.mpr ((List.pairwise_map.mp apart).imp_of_mem fun {p q} hp hq hne => ?_)
      intro label hlabel label' hlabel' hr hr' htag
      obtain ⟨_, h, -, htag₁⟩ := (each p hp).tag_of_replaces base mod hs ht
      obtain ⟨_, h', -, htag₂⟩ := (each q hq).tag_of_replaces base mod hs ht
      cases hlabel.symm.trans h
      cases hlabel'.symm.trans h'
      exact hne ((htag₁ hr).trans (htag.trans (htag₂ hr').symm))
termination_by sizeOf fs

theorem ComesFrom.redefines {l : Language} {s t : Source} {text text' : List Char} {m m' : ChildMap Node}
    {sig : String} {f : Form} (hs : l.source text = .ok s) (ht : l.source text' = .ok t)
    (h : ComesFrom l s t m m' sig f) : f.redefines = false := by
  cases h with
  | kept n found standing => exact standing.depicts.redefines
  | taken twin found standing => exact standing.depicts.redefines
  | @inside _ _ _ _ _ _ _ _ _ _ body _ clauses _ _ n twin found found' differ standing children children' below =>
    have := sizeOf_append body clauses
    obtain ⟨hany, hlabels⟩ := below.fresh hs ht
    rw [anyRedefines_iff, List.forall_mem_append] at hany
    rw [Form.redefines, anyRedefines_iff.mpr hany.1, anyRedefines_iff.mpr hany.2, ← labelsOf_append, hlabels]
    rfl
termination_by sizeOf f
decreasing_by
  simp only [Form.block.sizeOf_spec]
  omega

end

end ModWeave
