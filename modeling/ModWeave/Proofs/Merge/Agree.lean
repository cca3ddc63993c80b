import ModWeave.Proofs.Merge.Turn

/-! Blocks agree when their statements and their clauses do, one by one. -/
namespace ModWeave

variable {fs gs body body' clauses clauses' : List Form}

theorem labelsOf_of_agrees (h : List.Forall₂ Agrees (solids fs) (solids gs)) : labelsOf fs = labelsOf gs := by
  rw [← labelsOf_solids fs, ← labelsOf_solids gs]
  generalize solids fs = xs at h
  generalize solids gs = ys at h
  induction h with
  | nil => rfl
  | cons hfg _ ih => rw [labelsOf_cons, labelsOf_cons, hfg.label, ih]

/-- Strays aside, everything is in order. -/
theorem orderedAll_of_agrees (h : List.Forall₂ Agrees (solids fs) (solids gs)) : orderedAll fs = true := by
  refine orderedAll_iff.mpr fun f hf => ?_
  cases hsolid : f.isSolid with
  | false =>
    cases f with
    | stray => rfl
    | leaf | block => cases hsolid
  | true =>
    obtain ⟨g, -, hfg⟩ := exists_of_forall₂_left h (List.mem_filter.mpr ⟨hf, hsolid⟩)
    exact hfg.ordered

theorem anyRedefines_of_agrees (h : List.Forall₂ Agrees (solids fs) (solids gs)) : anyRedefines fs = false := by
  refine anyRedefines_iff.mpr fun f hf => ?_
  cases hsolid : f.isSolid with
  | false =>
    cases f with
    | stray => rfl
    | leaf | block => cases hsolid
  | true =>
    obtain ⟨g, -, hfg⟩ := exists_of_forall₂_left h (List.mem_filter.mpr ⟨hf, hsolid⟩)
    exact hfg.fresh

theorem elseLast_of_agrees (h : List.Forall₂ Agrees fs gs) (hlast : elseLast gs = true) :
    elseLast fs = true := by
  induction h with
  | nil => rfl
  | @cons f g fs gs hfg hrest ih =>
    have hempty : fs.isEmpty = gs.isEmpty := by cases hrest <;> rfl
    have helse : f.isElse = g.isElse := by rw [Form.isElse, Form.isElse, hfg.label]
    rw [elseLast, Bool.and_eq_true] at hlast ⊢
    exact ⟨by rw [helse, hempty]; exact hlast.1, ih hlast.2⟩

private theorem forall₂_same_zip {α β γ : Type} {R : β → γ → Prop} {xs : List β} {ys : List γ} (ks : List α)
    (h : List.Forall₂ R xs ys) :
    List.Forall₂ (fun p q => p.1 = q.1 ∧ R p.2 q.2) (ks.zip xs) (ks.zip ys) := by
  induction h generalizing ks with
  | nil => simp
  | cons hxy _ ih =>
    cases ks with
    | nil => simp
    | cons k ks => exact .cons ⟨rfl, hxy⟩ (ih ks)

/-- Children that agree one by one have the same keys. -/
theorem keyed_of_agrees (hb : List.Forall₂ Agrees (solids body) (solids body'))
    (hc : List.Forall₂ Agrees (solids clauses) (solids clauses')) :
    List.Forall₂ (fun p q => p.1 = q.1 ∧ Agrees p.2 q.2) (keyed body clauses) (keyed body' clauses') := by
  rw [keyed, keyed, labelsOf_of_agrees hb, labelsOf_of_agrees hc]
  exact forall₂_same_zip _ (List.rel_append hb hc)

section Block

variable {label label' : Label} {header : List Lexeme} {opening opening' closing closing' : Lexeme}
  {trail trail' : List Lexeme}

private theorem sameForm_of_agrees (hb : List.Forall₂ Agrees (solids body) (solids body'))
    (hc : List.Forall₂ Agrees (solids clauses) (solids clauses'))
    (hkeys : ((keyed body' clauses').map Prod.fst).Nodup) :
    SameForm (.block label header opening body closing clauses trail)
      (.block label' header opening' body' closing' clauses' trail') := by
  classical
  have hkeyed := keyed_of_agrees hb hc
  -- the keys tell the children of a block apart, so that the choice does not matter
  let twin (k : String) : Form :=
    if h : ∃ g, (k, g) ∈ keyed body' clauses' then h.choose else .stray (.text, "")
  have htwin (p : String × Form) (hp : p ∈ keyed body clauses) :
      (p.1, twin p.1) ∈ keyed body' clauses' ∧ SameForm p.2 (twin p.1) := by
    obtain ⟨q, hq, hkey, hagrees⟩ := exists_of_forall₂_left hkeyed hp
    have hchoice : ∃ g, (p.1, g) ∈ keyed body' clauses' := ⟨q.2, hkey ▸ hq⟩
    have htw : twin p.1 = hchoice.choose := dif_pos hchoice
    have heq := List.inj_on_of_nodup_map hkeys hchoice.choose_spec hq hkey
    rw [htw]
    exact ⟨hchoice.choose_spec, (show hchoice.choose = q.2 from congrArg Prod.snd heq) ▸ hagrees.same⟩
  exact .block twin hkeyed.length_eq (fun p hp => (htwin p hp).1) fun p hp => (htwin p hp).2

/-- A block agrees with one of the same label and header whose children agree with its own. -/
theorem Agrees.block (hlabel : label = label')
    (hb : List.Forall₂ Agrees (solids body) (solids body'))
    (hc : List.Forall₂ Agrees clauses clauses') (hsolid : ∀ f ∈ clauses ++ clauses', f.isSolid = true)
    (hkeys : ((keyed body' clauses').map Prod.fst).Nodup)
    (hfresh : labelsRedefine .empty 0 (labelsOf body' ++ labelsOf clauses') = false)
    (hlast : elseLast clauses' = true) :
    Agrees (.block label header opening body closing clauses trail)
      (.block label' header opening' body' closing' clauses' trail') := by
  rw [List.forall_mem_append] at hsolid
  have hsolids : List.Forall₂ Agrees (solids clauses) (solids clauses') := by
    rwa [solids, solids, List.filter_eq_self.mpr hsolid.1, List.filter_eq_self.mpr hsolid.2]
  refine ⟨by simp only [Form.label?, hlabel], sameForm_of_agrees hb hsolids hkeys, ?_, ?_⟩
  · rw [Form.redefines, anyRedefines_of_agrees hb, anyRedefines_of_agrees hsolids, labelsOf_of_agrees hb,
      labelsOf_of_agrees hsolids, hfresh]
    rfl
  · rw [Form.ordered, orderedAll_of_agrees hb, orderedAll_of_agrees hsolids, elseLast_of_agrees hc hlast]
    rfl

end Block

end ModWeave
