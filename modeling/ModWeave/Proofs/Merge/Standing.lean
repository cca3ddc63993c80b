import ModWeave.Proofs.Merge.Region

/-! Nodes that stand for sound forms at places where the text can be cut. -/
namespace ModWeave

variable {l : Language} {s : Source} {i k : Nat} {f : Form} {n : Node} {fs : List Form} {ns : List Node}

/-- The node stands for the form, from token `i` on. -/
structure Standing (l : Language) (s : Source) (i : Nat) (f : Form) (n : Node) : Prop where
  depicts : Depicts s i f n
  spells : s.Spells i f.lexemes
  closed : s.Closed l i
  sound : l.Sound f

/-- The nodes stand for the forms that make constructs. The first form starts at token `i`. -/
structure StandingAll (l : Language) (s : Source) (i : Nat) (fs : List Form) (ns : List Node) :
    Prop where
  depicts : DepictsAll s i fs ns
  spells : s.Spells i (lexemesAll fs)
  closed : s.Closed l i
  sound : ∀ f ∈ fs, l.Sound f

/-- Behind lexemes that end a construct. -/
theorem Source.Spells.closed {ls : List Lexeme} {y : Lexeme} (h : s.Spells i ls)
    (hy : ls.getLast? = some y) (hcloses : l.closes y = true) : s.Closed l (i + ls.length) := by
  obtain ⟨ms, rfl⟩ := List.getLast?_eq_some_iff.mp hy
  rw [List.length_append, List.length_singleton, ← Nat.add_assoc]
  refine ⟨y, ?_, hcloses⟩
  obtain ⟨rest, hr⟩ := h.right
  have := congrArg (·[0]?) hr
  simpa using this.symm

theorem Source.Spells.between {ls : List Lexeme} (h : s.Spells i ls) :
    (s.lexemes.take (i + ls.length)).drop i = ls := by
  obtain ⟨rest, hr⟩ := h
  rw [List.drop_take, ← hr, Nat.add_sub_cancel_left, List.take_left]

namespace Standing

theorem tokens (h : Standing l s i f n) : n.tokens = ⟨i, i + f.lexemes.length⟩ := by
  cases h.depicts with
  | leaf i label x ls sig =>
    simp only [Node.tokens, Node.head, Form.lexemes, List.length_cons, Extent.mk.injEq, true_and]
    omega
  | block i label header opening body closing clauses trail =>
    simp only [Node.tokens, Node.head, Form.lexemes, List.length_append, List.length_cons,
      Extent.mk.injEq, true_and]
    omega

theorem isClause (h : Standing l s i f n) : n.kind.isClause = f.isClause := by
  cases h.depicts <;> rfl

theorem isElse (h : Standing l s i f n) : (n.kind == .otherwise) = f.isElse := by
  cases h.depicts <;> rfl

theorem isSolid (h : Standing l s i f n) : f.isSolid = true := by
  cases h.depicts <;> rfl

theorem stop_le (h : Standing l s i f n) : i + f.lexemes.length ≤ s.tokens.length :=
  h.spells.stop_le f.length_pos

theorem span (h : Standing l s i f n) :
    n.span s = (s.startAt i, s.endAt (i + f.lexemes.length)) := by
  have := f.length_pos
  rw [Node.span, h.tokens, Source.byteRange_of_lt (by omega)]

theorem closed_stop (h : Standing l s i f n) : s.Closed l (i + f.lexemes.length) := by
  obtain ⟨y, hy, hcloses⟩ := h.sound.closes
  exact h.spells.closed hy hcloses

/-- A node is written as what its form reads as. -/
theorem text (h : Standing l s i f n) (hs : s.Cuts l) :
    ∃ cs, n.text? s = some cs ∧ l.Reads cs f.lexemes := by
  have hpos := f.length_pos
  have hle := h.stop_le
  have hstart := hs.startAt i h.closed (.inl (by omega))
  have hend := hs.endAt _ h.closed_stop
  have hbytes := hs.laidOut.startAt_lt_endAt_of_lt (j := i + f.lexemes.length) (by omega)
    (show i < s.tokens.length by omega)
  obtain ⟨cs, hcs, hreads⟩ := hstart.between hend (Nat.le_of_lt hbytes) (Nat.le_add_right _ _)
  rw [h.spells.between] at hreads
  exact ⟨cs, by rw [Node.text?, h.span, hcs], hreads⟩

end Standing

namespace StandingAll

theorem stray {x : Lexeme} (h : StandingAll l s i (.stray x :: fs) ns) :
    StandingAll l s (i + 1) fs ns ∧ s.Closed l (i + 1) := by
  obtain ⟨y, hy, hcloses⟩ := (h.sound (.stray x) List.mem_cons_self).closes
  have hclosed : s.Closed l (i + 1) := h.spells.left.closed hy hcloses
  refine ⟨⟨?_, h.spells.right, hclosed, fun f hf => h.sound f (List.mem_cons_of_mem _ hf)⟩, hclosed⟩
  cases h.depicts with
  | stray _ _ rest => exact rest
  | solid first => cases first

theorem uncons (h : StandingAll l s i (f :: fs) ns) (hf : f.isSolid = true) :
    ∃ n ns', ns = n :: ns' ∧ Standing l s i f n ∧ StandingAll l s (i + f.lexemes.length) fs ns' := by
  cases h.depicts with
  | stray => cases hf
  | solid first rest =>
    have hfirst : Standing l s i f _ :=
      ⟨first, h.spells.left, h.closed, h.sound f List.mem_cons_self⟩
    exact ⟨_, _, rfl, hfirst, rest, h.spells.right, hfirst.closed_stop,
      fun g hg => h.sound g (List.mem_cons_of_mem _ hg)⟩

theorem eq_nil (h : StandingAll l s i [] ns) : ns = [] := by
  cases h.depicts
  rfl

/-- Forms are strays or stand for nodes, one behind the other. -/
theorem induction {motive : Nat → List Form → List Node → Prop} (h : StandingAll l s i fs ns)
    (nil : ∀ i, s.Closed l i → motive i [] [])
    (stray : ∀ i x fs ns, StandingAll l s i (.stray x :: fs) ns → StandingAll l s (i + 1) fs ns →
      motive (i + 1) fs ns → motive i (.stray x :: fs) ns)
    (solid : ∀ i f n fs ns, Standing l s i f n → StandingAll l s (i + f.lexemes.length) fs ns →
      motive (i + f.lexemes.length) fs ns → motive i (f :: fs) (n :: ns)) : motive i fs ns := by
  induction fs generalizing i ns with
  | nil =>
    rw [h.eq_nil]
    exact nil i h.closed
  | cons f fs ih =>
    cases hf : f.isSolid with
    | true =>
      obtain ⟨n, ns, rfl, hn, hns⟩ := h.uncons hf
      exact solid i f n fs ns hn hns (ih hns)
    | false =>
      cases f with
      | stray x => exact stray i x fs ns h h.stray.1 (ih h.stray.1)
      | leaf | block => cases hf

theorem closed_stop (h : StandingAll l s i fs ns) : s.Closed l (i + (lexemesAll fs).length) := by
  refine h.induction (motive := fun i fs _ => s.Closed l (i + (lexemesAll fs).length)) ?_ ?_ ?_
  · exact fun i hi => hi
  · intro i x fs ns _ _ ih
    rwa [lexemesAll_cons, List.length_append, ← Nat.add_assoc]
  · intro i f n fs ns _ _ ih
    rwa [lexemesAll_cons, List.length_append, ← Nat.add_assoc]

/-- The nodes stand for the solid forms, one by one. -/
theorem forall₂ (h : StandingAll l s i fs ns) :
    List.Forall₂ (fun f n => ∃ j, Standing l s j f n) (solids fs) ns := by
  refine h.induction (motive := fun _ fs ns => List.Forall₂ _ (solids fs) ns) ?_ ?_ ?_
  · exact fun _ _ => .nil
  · exact fun _ _ _ _ _ _ ih => ih
  · intro i f n fs ns hn _ ih
    rw [solids, List.filter_cons_of_pos hn.isSolid]
    exact .cons ⟨i, hn⟩ ih

/-- A node stands among the tokens of the forms. -/
theorem within (h : StandingAll l s i fs ns) (hn : n ∈ ns) : ∃ j f, f ∈ fs ∧ Standing l s j f n ∧
    i ≤ j ∧ j + f.lexemes.length ≤ i + (lexemesAll fs).length := by
  refine h.induction (motive := fun i fs ns => n ∈ ns → ∃ j f, f ∈ fs ∧ Standing l s j f n ∧
    i ≤ j ∧ j + f.lexemes.length ≤ i + (lexemesAll fs).length) ?_ ?_ ?_ hn
  · intro i _ hn
    cases hn
  · intro i x fs ns _ _ ih hn
    obtain ⟨j, f, hf, hstand, hlo, hhi⟩ := ih hn
    refine ⟨j, f, List.mem_cons_of_mem _ hf, hstand, by omega, ?_⟩
    simp only [lexemesAll_cons, Form.lexemes, List.length_append, List.length_singleton]
    omega
  · intro i f m fs ns hm _ ih hn
    rw [lexemesAll_cons, List.length_append]
    rcases List.mem_cons.mp hn with rfl | hn
    · exact ⟨i, f, List.mem_cons_self, hm, Nat.le_refl i, by omega⟩
    · obtain ⟨j, g, hg, hstand, hlo, hhi⟩ := ih hn
      exact ⟨j, g, List.mem_cons_of_mem _ hg, hstand, by omega, by omega⟩

/-- The nodes end behind the place where the first form starts, and within the forms. -/
theorem bytes (h : StandingAll l s i fs ns) (hs : s.Cuts l) (hn : n ∈ ns) :
    s.endAt i ≤ (n.span s).1 ∧ (n.span s).1 < (n.span s).2 ∧
      (n.span s).2 ≤ s.endAt (i + (lexemesAll fs).length) := by
  obtain ⟨j, f, -, hstand, hlo, hhi⟩ := h.within hn
  have hpos := f.length_pos
  have hle := hstand.stop_le
  rw [hstand.span]
  refine ⟨hs.laidOut.endAt_le_startAt_of_le hlo, ?_, hs.laidOut.endAt_mono hhi⟩
  exact hs.laidOut.startAt_lt_endAt_of_lt (by omega) (by omega)

end StandingAll

end ModWeave
