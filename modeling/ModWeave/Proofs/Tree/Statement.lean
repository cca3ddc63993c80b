import ModWeave.Proofs.Tree.Grammar

/-! What the readers of statements, bodies and clauses give, told by the grammar. -/
namespace ModWeave.Script

/-- A leaf that starts at `ts` and leaves `r`, with a `;` at its end or without. -/
def LeafAt (n : Nat) (kind : NodeKind) (ts : List Token) (c : Construct) (r : List Token) : Prop :=
  ∃ tag first k, LeafBody kind tag first ts k ∧ (skip ";" k).val = r ∧
    c = leaf n kind tag first ts r

/-- A block without clauses that starts at `ts` and leaves `r`. -/
def BlockAt (n : Nat) (kind : NodeKind) (ts : List Token) (c : Construct) (r : List Token) : Prop :=
  ∃ tag k braces body, Opens kind tag ts k ∧ Gives (block n k) (braces, body) r ∧
    c = .block kind tag (extent n ts r) (lineOf ts) braces body

/-- An `if` that starts at `ts` and leaves `r`, with its clauses. -/
def ConditionalAt (n : Nat) (ts : List Token) (c : Construct) (r : List Token) : Prop :=
  ∃ k braces body m more, Opens .conditional "if" ts k ∧ Gives (block n k) (braces, body) m ∧
    GivesAny (clauses n m) more r ∧
      c = .block .conditional "if" (extent n ts r) (lineOf ts) braces (body ++ more)

section

variable {n : Nat} {t : Token} {r q : List Token} {c : Construct}

private theorem gives_importDecl (ht : isKeyword (some .importDecl) t = true) :
    Gives (importDecl n t r) c q ↔ LeafAt n .importDecl (t :: r) c q := by
  rw [importDecl]
  constructor
  · rintro ⟨_, he, rfl, rfl⟩
    obtain ⟨a, h1, he⟩ := bind_eq_ok.mp he
    cases he
    exact ⟨_, _, _, ⟨rfl, _, ⟨t, rfl, ht⟩, _, rfl, _, ⟨a, h1, rfl, rfl⟩, rfl⟩, rfl, rfl⟩
  · rintro ⟨_, _, _, ⟨rfl, _, ⟨_, h, -⟩, _, rfl, _, ⟨a, h1, rfl, rfl⟩, rfl⟩, rfl, rfl⟩
    cases h
    exact bind_succeeds h1 ⟨_, rfl, rfl, rfl⟩

private theorem gives_exportDecl (ht : isKeyword (some .exportDecl) t = true) :
    Gives (exportDecl n t r) c q ↔ LeafAt n .exportDecl (t :: r) c q := by
  rw [exportDecl]
  constructor
  · rintro ⟨_, he, rfl, rfl⟩
    obtain ⟨a, h1, he⟩ := bind_eq_ok.mp he
    obtain ⟨b, h2, he⟩ := bind_eq_ok.mp he
    obtain ⟨d, h3, he⟩ := bind_eq_ok.mp he
    obtain ⟨e, h4, he⟩ := bind_eq_ok.mp he
    cases he
    exact ⟨_, _, _, ⟨rfl, _, ⟨t, rfl, ht⟩, _, ⟨_, _, ⟨a, h1, rfl, rfl⟩, rfl⟩, _,
      ⟨_, rfl, _, ⟨b, h2, rfl, rfl⟩, rfl⟩, _, ⟨d, h3, rfl⟩, e, h4, rfl⟩, rfl, rfl⟩
  · rintro ⟨_, _, _, ⟨rfl, _, ⟨_, h, -⟩, _, ⟨_, _, ⟨a, h1, rfl, rfl⟩, rfl⟩, _,
      ⟨_, rfl, _, ⟨b, h2, rfl, rfl⟩, rfl⟩, _, ⟨d, h3, rfl⟩, e, h4, rfl⟩, rfl, rfl⟩
    cases h
    exact bind_succeeds h1 (bind_succeeds h2 (bind_succeeds h3 (bind_succeeds h4 ⟨_, rfl, rfl, rfl⟩)))

private theorem gives_externDecl (ht : isKeyword (some .externDecl) t = true) :
    Gives (externDecl n t r) c q ↔ LeafAt n .externDecl (t :: r) c q := by
  rw [externDecl]
  constructor
  · rintro ⟨_, he, rfl, rfl⟩
    obtain ⟨a, h1, he⟩ := bind_eq_ok.mp he
    obtain ⟨b, h2, he⟩ := bind_eq_ok.mp he
    cases he
    exact ⟨_, _, _, ⟨rfl, _, ⟨t, rfl, ht⟩, _, _, ⟨_, ⟨a, h1, rfl, rfl⟩, rfl⟩, _, rfl, _,
      ⟨b, h2, rfl, rfl⟩, rfl⟩, rfl, rfl⟩
  · rintro ⟨_, _, _, ⟨rfl, _, ⟨_, h, -⟩, _, _, ⟨_, ⟨a, h1, rfl, rfl⟩, rfl⟩, _, rfl, _,
      ⟨b, h2, rfl, rfl⟩, rfl⟩, rfl, rfl⟩
    cases h
    exact bind_succeeds h1 (bind_succeeds h2 ⟨_, rfl, rfl, rfl⟩)

private theorem gives_useDecl (ht : isKeyword (some .useDecl) t = true) :
    Gives (useDecl n t r) c q ↔ LeafAt n .useDecl (t :: r) c q := by
  rw [useDecl]
  constructor
  · rintro ⟨_, he, rfl, rfl⟩
    obtain ⟨a, h1, he⟩ := bind_eq_ok.mp he
    obtain ⟨b, h2, he⟩ := bind_eq_ok.mp he
    cases he
    exact ⟨_, _, _, ⟨rfl, _, ⟨t, rfl, ht⟩, _, _, ⟨_, ⟨a, h1, rfl, rfl⟩, rfl⟩, _, rfl, _,
      gives_arguments.mp ⟨b, h2, rfl, rfl⟩⟩, rfl, rfl⟩
  · rintro ⟨_, _, _, ⟨rfl, _, ⟨_, h, -⟩, _, _, ⟨_, ⟨a, h1, rfl, rfl⟩, rfl⟩, _, rfl, _, hargs⟩, rfl, rfl⟩
    cases h
    obtain ⟨b, h2, hb, rfl⟩ := gives_arguments.mpr hargs
    obtain ⟨rfl, -⟩ := Prod.mk.inj hb
    exact bind_succeeds h1 (bind_succeeds h2 ⟨_, rfl, rfl, rfl⟩)

private theorem gives_directive (ht : t.isPunct "!" = true) :
    Gives (directive n t r) c q ↔ LeafAt n .directive (t :: r) c q := by
  rw [directive]
  constructor
  · rintro ⟨_, he, rfl, rfl⟩
    obtain ⟨a, h1, he⟩ := bind_eq_ok.mp he
    obtain ⟨b, h2, he⟩ := bind_eq_ok.mp he
    cases he
    exact ⟨_, _, _, ⟨rfl, _, ⟨t, rfl, ht⟩, _, _, ⟨_, ⟨a, h1, rfl, rfl⟩, rfl⟩, _, rfl, _,
      gives_arguments.mp ⟨b, h2, rfl, rfl⟩⟩, rfl, rfl⟩
  · rintro ⟨_, _, _, ⟨rfl, _, ⟨_, h, -⟩, _, _, ⟨_, ⟨a, h1, rfl, rfl⟩, rfl⟩, _, rfl, _, hargs⟩, rfl, rfl⟩
    cases h
    obtain ⟨b, h2, hb, rfl⟩ := gives_arguments.mpr hargs
    obtain ⟨rfl, -⟩ := Prod.mk.inj hb
    exact bind_succeeds h1 (bind_succeeds h2 ⟨_, rfl, rfl, rfl⟩)

private theorem gives_macroCall (ht : t.kind = .macroName) :
    Gives (macroCall n t r) c q ↔ LeafAt n .macroCall (t :: r) c q := by
  rw [macroCall]
  constructor
  · rintro ⟨_, he, rfl, rfl⟩
    obtain ⟨a, h1, he⟩ := bind_eq_ok.mp he
    obtain ⟨b, h2, he⟩ := bind_eq_ok.mp he
    obtain ⟨d, h3, he⟩ := bind_eq_ok.mp he
    cases he
    exact ⟨_, _, _, ⟨rfl, _, rfl, _, ⟨t, rfl, by simp [ht]⟩, _, ⟨a, h1, rfl⟩, _, ⟨b, h2, rfl⟩, d, h3,
      rfl⟩, rfl, rfl⟩
  · rintro ⟨_, _, _, ⟨rfl, x, rfl, _, ⟨_, h, hx⟩, _, ⟨a, h1, rfl⟩, _, ⟨b, h2, rfl⟩, d, h3, rfl⟩, rfl,
      rfl⟩
    cases h
    obtain ⟨-, rfl⟩ : _ ∧ t.lexeme = x := by simpa using hx
    exact bind_succeeds h1 (bind_succeeds h2 (bind_succeeds h3 ⟨_, rfl, rfl, rfl⟩))

private theorem gives_variableDecl (ht : isKeyword none t = true) :
    Gives (variableDecl n t r) c q ↔ LeafAt n .variableDecl (t :: r) c q := by
  rw [variableDecl]
  constructor
  · rintro ⟨_, he, rfl, rfl⟩
    obtain ⟨a, h1, he⟩ := bind_eq_ok.mp he
    obtain ⟨b, h2, he⟩ := bind_eq_ok.mp he
    cases he
    exact ⟨_, _, _, ⟨rfl, _, _, ⟨t, rfl, by simp [ht]⟩, _, _, ⟨rfl, _, ⟨a, h1, rfl, rfl⟩, rfl⟩, b, h2,
      rfl⟩, rfl, rfl⟩
  · rintro ⟨_, _, _, ⟨rfl, x, _, ⟨_, h, hx⟩, _, _, ⟨rfl, _, ⟨a, h1, rfl, rfl⟩, rfl⟩, b, h2, rfl⟩, rfl,
      rfl⟩
    cases h
    obtain ⟨-, rfl⟩ : _ ∧ t.lexeme = x := by simpa using hx
    exact bind_succeeds h1 (bind_succeeds h2 ⟨_, rfl, rfl, rfl⟩)

private theorem gives_methodReference (ht : isKeyword none t = true) :
    Gives (methodReference n t r) c q ↔ LeafAt n .methodReference (t :: r) c q := by
  rw [methodReference]
  constructor
  · rintro ⟨_, he, rfl, rfl⟩
    obtain ⟨a, h1, he⟩ := bind_eq_ok.mp he
    obtain ⟨b, h2, he⟩ := bind_eq_ok.mp he
    obtain ⟨d, h3, he⟩ := bind_eq_ok.mp he
    cases he
    exact ⟨_, _, _, ⟨rfl, _, _, ⟨t, rfl, by simp [ht]⟩, _, ⟨a, h1, rfl⟩, _, _,
      ⟨rfl, _, ⟨b, h2, rfl, rfl⟩, rfl⟩, _, _, gives_arguments.mp ⟨d, h3, rfl, rfl⟩⟩, rfl, rfl⟩
  · rintro ⟨_, _, _, ⟨rfl, x, _, ⟨_, h, hx⟩, _, ⟨a, h1, rfl⟩, _, _, ⟨rfl, _, ⟨b, h2, rfl, rfl⟩, rfl⟩,
      _, _, hargs⟩, rfl, rfl⟩
    cases h
    obtain ⟨-, rfl⟩ : _ ∧ t.lexeme = x := by simpa using hx
    obtain ⟨d, h3, -, rfl⟩ := gives_arguments.mpr hargs
    exact bind_succeeds h1 (bind_succeeds h2 (bind_succeeds h3 ⟨_, rfl, rfl, rfl⟩))

end

section

variable {n : Nat} {ts q : List Token}

private theorem gives_map {α β : Type} {p : Except ParseError (Parsed α ts)} {f : α → β} {b : β} :
    Gives (do return (← p).map f) b q ↔ ∃ a, Gives p a q ∧ b = f a := by
  constructor
  · rintro ⟨_, he, rfl, rfl⟩
    obtain ⟨a, h1, he⟩ := bind_eq_ok.mp he
    cases he
    exact ⟨_, ⟨a, h1, rfl, rfl⟩, rfl⟩
  · rintro ⟨_, ⟨a, h1, rfl, rfl⟩, rfl⟩
    exact bind_succeeds h1 ⟨_, rfl, rfl, rfl⟩

theorem isKeyword_iff {k : Option Keyword} {t : Token} :
    isKeyword k t = true ↔ t.kind = .ident ∧ keyword? t.lexeme = k := by
  simp [isKeyword]

variable {t : Token} {r : List Token} {c : Option Construct}

private theorem statement_importDecl (ht : isKeyword (some .importDecl) t = true) :
    Gives (statement n (t :: r)) c q ↔ ∃ d, LeafAt n .importDecl (t :: r) d q ∧ c = some d := by
  obtain ⟨hk, hw⟩ := isKeyword_iff.mp ht
  rw [statement]
  simp only [hk, hw, gives_map, gives_importDecl ht]

private theorem statement_exportDecl (ht : isKeyword (some .exportDecl) t = true) :
    Gives (statement n (t :: r)) c q ↔ ∃ d, LeafAt n .exportDecl (t :: r) d q ∧ c = some d := by
  obtain ⟨hk, hw⟩ := isKeyword_iff.mp ht
  rw [statement]
  simp only [hk, hw, gives_map, gives_exportDecl ht]

private theorem statement_externDecl (ht : isKeyword (some .externDecl) t = true) :
    Gives (statement n (t :: r)) c q ↔ ∃ d, LeafAt n .externDecl (t :: r) d q ∧ c = some d := by
  obtain ⟨hk, hw⟩ := isKeyword_iff.mp ht
  rw [statement]
  simp only [hk, hw, gives_map, gives_externDecl ht]

private theorem statement_useDecl (ht : isKeyword (some .useDecl) t = true) :
    Gives (statement n (t :: r)) c q ↔ ∃ d, LeafAt n .useDecl (t :: r) d q ∧ c = some d := by
  obtain ⟨hk, hw⟩ := isKeyword_iff.mp ht
  rw [statement]
  simp only [hk, hw, gives_map, gives_useDecl ht]

private theorem statement_directive (ht : t.isPunct "!" = true) :
    Gives (statement n (t :: r)) c q ↔ ∃ d, LeafAt n .directive (t :: r) d q ∧ c = some d := by
  obtain ⟨hk, hl⟩ : t.kind = .punct ∧ t.lexeme = "!" := by simpa [Token.isPunct] using ht
  rw [statement]
  simp only [hk, hl]
  rw [if_neg (by decide), if_pos trivial]
  simp only [gives_map, gives_directive ht]

private theorem statement_macroCall (hk : t.kind = .macroName) :
    Gives (statement n (t :: r)) c q ↔ ∃ d, LeafAt n .macroCall (t :: r) d q ∧ c = some d := by
  rw [statement]
  simp only [hk, gives_map, gives_macroCall hk]

private theorem statement_sub (ht : isKeyword (some .sub) t = true) :
    Gives (statement n (t :: r)) c q ↔ ∃ d, BlockAt n .sub (t :: r) d q ∧ c = some d := by
  obtain ⟨hk, hw⟩ := isKeyword_iff.mp ht
  rw [statement]
  simp only [hk, hw]
  constructor
  · rintro ⟨_, he, rfl, rfl⟩
    obtain ⟨a, h1, he⟩ := bind_eq_ok.mp he
    obtain ⟨b, h2, he⟩ := bind_eq_ok.mp he
    obtain ⟨d, h3, he⟩ := bind_eq_ok.mp he
    obtain ⟨e, h4, he⟩ := bind_eq_ok.mp he
    obtain ⟨f, h5, he⟩ := bind_eq_ok.mp he
    cases he
    exact ⟨_, ⟨_, _, _, _, ⟨_, ⟨t, rfl, ht⟩, _, _, ⟨rfl, _, ⟨a, h1, rfl, rfl⟩, rfl⟩, _, ⟨b, h2, rfl⟩,
      _, ⟨d, h3, rfl⟩, e, h4, rfl⟩, ⟨f, h5, rfl, rfl⟩, rfl⟩, rfl⟩
  · rintro ⟨_, ⟨_, _, _, _, ⟨_, ⟨_, h, -⟩, _, _, ⟨rfl, _, ⟨a, h1, rfl, rfl⟩, rfl⟩, _, ⟨b, h2, rfl⟩,
      _, ⟨d, h3, rfl⟩, e, h4, rfl⟩, ⟨f, h5, hf, rfl⟩, rfl⟩, rfl⟩
    cases h
    obtain ⟨rfl, rfl⟩ := Prod.mk.inj hf
    exact bind_succeeds h1 (bind_succeeds h2 (bind_succeeds h3 (bind_succeeds h4
      (bind_succeeds h5 ⟨_, rfl, rfl, rfl⟩))))

private theorem statement_conditional (ht : isKeyword (some .conditional) t = true) :
    Gives (statement n (t :: r)) c q ↔ ∃ d, ConditionalAt n (t :: r) d q ∧ c = some d := by
  obtain ⟨hk, hw⟩ := isKeyword_iff.mp ht
  rw [statement]
  simp only [hk, hw]
  constructor
  · rintro ⟨_, he, rfl, rfl⟩
    obtain ⟨a, h1, he⟩ := bind_eq_ok.mp he
    obtain ⟨b, h2, he⟩ := bind_eq_ok.mp he
    obtain ⟨d, h3, he⟩ := bind_eq_ok.mp he
    cases he
    exact ⟨_, ⟨_, _, _, _, _, ⟨rfl, _, ⟨t, rfl, ht⟩, a, h1, rfl⟩, ⟨b, h2, rfl, rfl⟩, ⟨d, h3, rfl, rfl⟩,
      rfl⟩, rfl⟩
  · rintro ⟨_, ⟨_, _, _, _, _, ⟨-, _, ⟨_, h, -⟩, a, h1, rfl⟩, ⟨b, h2, hb, rfl⟩, ⟨d, h3, rfl, rfl⟩,
      rfl⟩, rfl⟩
    cases h
    obtain ⟨rfl, rfl⟩ := Prod.mk.inj hb
    exact bind_succeeds h1 (bind_succeeds h2 (bind_succeeds h3 ⟨_, rfl, rfl, rfl⟩))

private theorem isPunct_iff {sign : String} :
    t.isPunct sign = true ↔ t.kind = .punct ∧ t.lexeme = sign := by
  simp [Token.isPunct]

private theorem statement_variableDecl (ht : isKeyword none t = true) {u : Token}
    (hu : u.kind = .ident) : Gives (statement n (t :: u :: r)) c q ↔
      ∃ d, LeafAt n .variableDecl (t :: u :: r) d q ∧ c = some d := by
  obtain ⟨hk, hw⟩ := isKeyword_iff.mp ht
  rw [statement]
  simp only [hk, hw, List.head?_cons, hu, if_true, gives_map, gives_variableDecl ht]

private theorem statement_methodReference (ht : isKeyword none t = true) {u : Token}
    (hu : u.isPunct "::" = true) : Gives (statement n (t :: u :: r)) c q ↔
      ∃ d, LeafAt n .methodReference (t :: u :: r) d q ∧ c = some d := by
  obtain ⟨hk, hw⟩ := isKeyword_iff.mp ht
  have hnot : u.kind ≠ .ident := by simp [(isPunct_iff.mp hu).1]
  rw [statement]
  simp only [hk, hw, List.head?_cons, hnot, hu, if_true, if_false, gives_map, gives_methodReference ht]

/-- A body is braced. -/
theorem gives_block {braces : Braces} {body : List Construct} :
    Gives (block n ts) (braces, body) q ↔ ∃ m, Leaves (expect "\x7b" ts) m ∧
      ∃ closing, Gives (blockRest n m) (closing, body) q ∧ braces = ⟨n - ts.length, closing⟩ := by
  rw [block]
  constructor
  · rintro ⟨_, he, hv, rfl⟩
    obtain ⟨a, h1, he⟩ := bind_eq_ok.mp he
    obtain ⟨b, h2, he⟩ := bind_eq_ok.mp he
    cases he
    cases hv
    exact ⟨_, ⟨a, h1, rfl⟩, _, ⟨b, h2, rfl, rfl⟩, rfl⟩
  · rintro ⟨_, ⟨a, h1, rfl⟩, _, ⟨b, h2, hb, rfl⟩, rfl⟩
    obtain ⟨rfl, rfl⟩ := Prod.mk.inj hb
    exact bind_succeeds h1 (bind_succeeds h2 ⟨_, rfl, rfl, rfl⟩)

/-- Behind a name and its arguments an opening brace tells a block from a call. -/
private theorem statement_arguments (ht : isKeyword none t = true) {u : Token}
    (hu : u.isPunct "(" = true) : Gives (statement n (t :: u :: r)) c q ↔
      ∃ d, (LeafAt n .funCall (t :: u :: r) d q ∨ BlockAt n .funBlock (t :: u :: r) d q) ∧
        c = some d := by
  obtain ⟨hk, hw⟩ := isKeyword_iff.mp ht
  have hnot : u.kind ≠ .ident := by simp [(isPunct_iff.mp hu).1]
  have hnot' : u.isPunct "::" = false := by simp [Token.isPunct, (isPunct_iff.mp hu).2]
  have hname : (isKeyword none t && t.lexeme == t.lexeme) = true := by simp [ht]
  rw [statement]
  simp only [hk, hw, List.head?_cons, hnot, hnot', hu, Bool.false_eq_true, if_true, if_false]
  constructor
  · rintro ⟨_, he, rfl, rfl⟩
    obtain ⟨a, h1, he⟩ := bind_eq_ok.mp he
    have hargs : Arguments a.value.1 a.value.2 (u :: r) a.rest := gives_arguments.mp ⟨a, h1, rfl, rfl⟩
    cases hopen : startsWith "\x7b" a.rest with
    | true =>
      simp only [Parsed.afterSome, hopen, if_true] at he
      obtain ⟨b, h2, he⟩ := bind_eq_ok.mp he
      cases he
      exact ⟨_, .inr ⟨_, _, _, _, ⟨_, _, ⟨t, rfl, hname⟩, _, rfl, _, hargs⟩, ⟨b, h2, rfl, rfl⟩, rfl⟩,
        rfl⟩
    | false =>
      simp only [Parsed.afterSome, hopen, Bool.false_eq_true, if_false] at he
      cases he
      exact ⟨_, .inl ⟨_, _, _, ⟨_, rfl, _, ⟨t, rfl, hname⟩, _, hargs, hopen⟩, rfl, rfl⟩, rfl⟩
  · rintro ⟨_, ⟨_, _, _, ⟨_, rfl, _, ⟨_, h, hx⟩, _, hargs, hopen⟩, rfl, rfl⟩ |
      ⟨_, k, _, _, ⟨x, _, ⟨_, h, hx⟩, _, rfl, _, hargs⟩, ⟨b, h2, hb, rfl⟩, rfl⟩, rfl⟩
    · cases h
      obtain ⟨-, rfl⟩ : _ ∧ t.lexeme = _ := by simpa using hx
      obtain ⟨a, h1, ha, rfl⟩ := gives_arguments.mpr hargs
      refine bind_succeeds h1 ?_
      simp only [Parsed.afterSome, hopen, Bool.false_eq_true, if_false]
      exact ⟨_, rfl, by rw [ha]; rfl, rfl⟩
    · cases h
      obtain ⟨-, rfl⟩ : _ ∧ t.lexeme = _ := by simpa using hx
      obtain ⟨a, h1, ha, rfl⟩ := gives_arguments.mpr hargs
      obtain ⟨rfl, rfl⟩ := Prod.mk.inj hb
      refine bind_succeeds h1 ?_
      obtain ⟨_, hbrace, -⟩ := gives_block.mp ⟨b, h2, rfl, rfl⟩
      obtain ⟨v, hrest, hv⟩ := leaves_expectSign.mp hbrace
      have hopen : startsWith "\x7b" a.rest = true := by simp [startsWith, hrest, hv]
      simp only [Parsed.afterSome, hopen, if_true]
      exact bind_succeeds h2 ⟨_, rfl, by rw [ha]; rfl, rfl⟩

/-- A plain name is the type of a variable, a receiver, or what is called. -/
private theorem statement_name (ht : isKeyword none t = true) (h : Gives (statement n (t :: r)) c q) :
    ∃ u m, r = u :: m ∧ (u.kind = .ident ∨ u.isPunct "::" = true ∨ u.isPunct "(" = true) := by
  obtain ⟨hk, hw⟩ := isKeyword_iff.mp ht
  rw [statement] at h
  cases r with
  | nil =>
    obtain ⟨_, he, -⟩ := h
    simp only [hk, hw] at he
    cases he
  | cons u m =>
    refine ⟨u, m, rfl, ?_⟩
    by_cases h1 : u.kind = .ident
    · exact .inl h1
    by_cases h2 : u.isPunct "::" = true
    · exact .inr (.inl h2)
    by_cases h3 : u.isPunct "(" = true
    · exact .inr (.inr h3)
    obtain ⟨_, he, -⟩ := h
    simp only [hk, hw, List.head?_cons, h1, h2, h3, if_false] at he
    cases he

private theorem statement_keyword {k : Keyword} (ht : isKeyword (some k) t = true)
    (h : Gives (statement n (t :: r)) c q) :
    (∃ kind d, LeafAt n kind (t :: r) d q ∧ c = some d) ∨
    (∃ kind d, (kind = .sub ∨ kind = .funBlock) ∧ BlockAt n kind (t :: r) d q ∧ c = some d) ∨
    ∃ d, ConditionalAt n (t :: r) d q ∧ c = some d := by
  cases k with
  | importDecl =>
    obtain ⟨d, hd, rfl⟩ := (statement_importDecl ht).mp h
    exact .inl ⟨_, d, hd, rfl⟩
  | exportDecl =>
    obtain ⟨d, hd, rfl⟩ := (statement_exportDecl ht).mp h
    exact .inl ⟨_, d, hd, rfl⟩
  | externDecl =>
    obtain ⟨d, hd, rfl⟩ := (statement_externDecl ht).mp h
    exact .inl ⟨_, d, hd, rfl⟩
  | useDecl =>
    obtain ⟨d, hd, rfl⟩ := (statement_useDecl ht).mp h
    exact .inl ⟨_, d, hd, rfl⟩
  | sub =>
    obtain ⟨d, hd, rfl⟩ := (statement_sub ht).mp h
    exact .inr (.inl ⟨_, d, .inl rfl, hd, rfl⟩)
  | conditional => exact .inr (.inr ((statement_conditional ht).mp h))
  | otherwise =>
    obtain ⟨hk, hw⟩ := isKeyword_iff.mp ht
    obtain ⟨_, he, -⟩ := h
    rw [statement] at he
    simp only [hk, hw] at he
    cases he

theorem LeafAt.gives {kind : NodeKind} {d : Construct} (h : LeafAt n kind ts d q) :
    Gives (statement n ts) (some d) q := by
  have hleaf := h
  obtain ⟨tag, first, k, hbody, -⟩ := h
  cases kind with
  | importDecl =>
    obtain ⟨-, m, ⟨t, rfl, ht⟩, -⟩ := hbody
    exact (statement_importDecl ht).mpr ⟨d, hleaf, rfl⟩
  | exportDecl =>
    obtain ⟨-, m, ⟨t, rfl, ht⟩, -⟩ := hbody
    exact (statement_exportDecl ht).mpr ⟨d, hleaf, rfl⟩
  | externDecl =>
    obtain ⟨-, m, ⟨t, rfl, ht⟩, -⟩ := hbody
    exact (statement_externDecl ht).mpr ⟨d, hleaf, rfl⟩
  | useDecl =>
    obtain ⟨-, m, ⟨t, rfl, ht⟩, -⟩ := hbody
    exact (statement_useDecl ht).mpr ⟨d, hleaf, rfl⟩
  | directive =>
    obtain ⟨-, m, ⟨t, rfl, ht⟩, -⟩ := hbody
    exact (statement_directive ht).mpr ⟨d, hleaf, rfl⟩
  | macroCall =>
    obtain ⟨-, x, -, m, ⟨t, rfl, ht⟩, -⟩ := hbody
    rw [Bool.and_eq_true, beq_iff_eq] at ht
    exact (statement_macroCall ht.1).mpr ⟨d, hleaf, rfl⟩
  | variableDecl =>
    obtain ⟨-, x, m, ⟨t, rfl, ht⟩, y, l, ⟨-, u, hu, -⟩, -⟩ := hbody
    obtain ⟨rfl, hident⟩ := gives_expectKind.mp hu
    exact (statement_variableDecl (Bool.and_eq_true_iff.mp ht).1 hident).mpr ⟨d, hleaf, rfl⟩
  | methodReference =>
    obtain ⟨-, x, m, ⟨t, rfl, ht⟩, l, hl, -⟩ := hbody
    obtain ⟨u, rfl, hu⟩ := leaves_expectSign.mp hl
    exact (statement_methodReference (Bool.and_eq_true_iff.mp ht).1 hu).mpr ⟨d, hleaf, rfl⟩
  | funCall =>
    obtain ⟨x, -, m, ⟨t, rfl, ht⟩, args, ⟨_, hm, -⟩, -⟩ := hbody
    obtain ⟨u, rfl, hu⟩ := leaves_expectSign.mp hm
    exact (statement_arguments (Bool.and_eq_true_iff.mp ht).1 hu).mpr ⟨d, .inl hleaf, rfl⟩
  | root | sub | funBlock | conditional | elseIf | otherwise | element => exact hbody.elim

theorem BlockAt.gives {kind : NodeKind} {d : Construct} (hkind : kind = .sub ∨ kind = .funBlock)
    (h : BlockAt n kind ts d q) : Gives (statement n ts) (some d) q := by
  have hblock := h
  obtain ⟨tag, k, braces, body, hopens, -⟩ := h
  obtain rfl | rfl := hkind
  · obtain ⟨m, ⟨t, rfl, ht⟩, -⟩ := hopens
    exact (statement_sub ht).mpr ⟨d, hblock, rfl⟩
  · obtain ⟨x, m, ⟨t, rfl, ht⟩, args, -, f, _, hm, -⟩ := hopens
    obtain ⟨u, rfl, hu⟩ := leaves_expectSign.mp hm
    exact (statement_arguments (Bool.and_eq_true_iff.mp ht).1 hu).mpr ⟨d, .inr hblock, rfl⟩

theorem ConditionalAt.gives {d : Construct} (h : ConditionalAt n ts d q) :
    Gives (statement n ts) (some d) q := by
  have hif := h
  obtain ⟨k, braces, body, m, more, ⟨-, l, ⟨t, rfl, ht⟩, -⟩, -⟩ := h
  exact (statement_conditional ht).mpr ⟨d, hif, rfl⟩

/-- A statement is a lone `;`, a leaf, or a block with the clauses behind it. -/
theorem gives_statement : Gives (statement n ts) c q ↔
    (c = none ∧ Takes (·.isPunct ";") ts q) ∨
    (∃ kind d, LeafAt n kind ts d q ∧ c = some d) ∨
    (∃ kind d, (kind = .sub ∨ kind = .funBlock) ∧ BlockAt n kind ts d q ∧ c = some d) ∨
    ∃ d, ConditionalAt n ts d q ∧ c = some d := by
  constructor
  · intro h
    cases ts with
    | nil =>
      obtain ⟨_, he, -⟩ := h
      rw [statement] at he
      cases he
    | cons t r =>
    cases hk : t.kind with
    | punct =>
      by_cases hsemi : t.lexeme = ";"
      · obtain ⟨_, he, rfl, rfl⟩ := h
        rw [statement] at he
        simp only [hk, hsemi, if_true] at he
        cases he
        exact .inl ⟨rfl, t, rfl, isPunct_iff.mpr ⟨hk, hsemi⟩⟩
      by_cases hbang : t.lexeme = "!"
      · obtain ⟨d, hd, rfl⟩ := (statement_directive (isPunct_iff.mpr ⟨hk, hbang⟩)).mp h
        exact .inr (.inl ⟨_, d, hd, rfl⟩)
      · obtain ⟨_, he, -⟩ := h
        rw [statement] at he
        simp only [hk, hsemi, hbang, if_false] at he
        cases he
    | macroName =>
      obtain ⟨d, hd, rfl⟩ := (statement_macroCall hk).mp h
      exact .inr (.inl ⟨_, d, hd, rfl⟩)
    | ident =>
      cases hw : keyword? t.lexeme with
      | some k => exact .inr (statement_keyword (isKeyword_iff.mpr ⟨hk, hw⟩) h)
      | none =>
        have ht : isKeyword none t = true := isKeyword_iff.mpr ⟨hk, hw⟩
        obtain ⟨u, m, rfl, hu | hu | hu⟩ := statement_name ht h
        · obtain ⟨d, hd, rfl⟩ := (statement_variableDecl ht hu).mp h
          exact .inr (.inl ⟨_, d, hd, rfl⟩)
        · obtain ⟨d, hd, rfl⟩ := (statement_methodReference ht hu).mp h
          exact .inr (.inl ⟨_, d, hd, rfl⟩)
        · obtain ⟨d, hd | hd, rfl⟩ := (statement_arguments ht hu).mp h
          · exact .inr (.inl ⟨_, d, hd, rfl⟩)
          · exact .inr (.inr (.inl ⟨_, d, .inr rfl, hd, rfl⟩))
    | number | str | text =>
      obtain ⟨_, he, -⟩ := h
      rw [statement] at he
      simp only [hk] at he
      cases he
  · rintro (⟨rfl, t, rfl, ht⟩ | ⟨kind, d, hd, rfl⟩ | ⟨kind, d, hkind, hd, rfl⟩ | ⟨d, hd, rfl⟩)
    · obtain ⟨hk, hl⟩ := isPunct_iff.mp ht
      rw [statement]
      simp only [hk, hl, if_true]
      exact ⟨_, rfl, rfl, rfl⟩
    · exact hd.gives
    · exact hd.gives hkind
    · exact hd.gives

/-- No statement starts with `else` or a closing brace. -/
def endsStatements (t : Token) : Bool := t.isWord "else" || t.isPunct "\x7d"

theorem not_endsStatements_of_statement (h : Gives (statement n ts) c q) :
    ts.head?.any endsStatements = false := by
  cases ts with
  | nil => rfl
  | cons t r =>
    rw [List.head?_cons, Option.any_some, Bool.eq_false_iff]
    intro hne
    obtain ⟨_, he, -⟩ := h
    rw [statement] at he
    simp only [endsStatements, Token.isWord, Token.isPunct, Bool.or_eq_true, Bool.and_eq_true,
      beq_iff_eq] at hne
    obtain hne | hne := hne
    all_goals
      simp only [hne.1, hne.2] at he
      cases he

/-- What stands before a body decides what is read. -/
theorem statement_of_opens {kind : NodeKind} {tag : String} {k : List Token}
    (hopens : Opens kind tag ts k) (hk : startsWith "\x7b" k = true)
    (h : Gives (statement n ts) c q) :
    ∃ d, c = some d ∧ ((kind = .conditional ∧ ConditionalAt n ts d q) ∨
      (kind ≠ .conditional ∧ BlockAt n kind ts d q)) := by
  have hhead := not_endsStatements_of_statement h
  cases kind with
  | sub =>
    obtain ⟨m, ⟨t, rfl, ht⟩, -⟩ := hopens
    obtain ⟨d, hd, rfl⟩ := (statement_sub ht).mp h
    exact ⟨d, rfl, .inr ⟨by decide, hd⟩⟩
  | funBlock =>
    obtain ⟨x, m, ⟨t, rfl, ht⟩, args, -, f, hargs⟩ := hopens
    have hname := (Bool.and_eq_true_iff.mp ht).1
    obtain ⟨_, hm, -⟩ := id hargs
    obtain ⟨u, rfl, hu⟩ := leaves_expectSign.mp hm
    obtain ⟨d, hd | hd, rfl⟩ := (statement_arguments hname hu).mp h
    · obtain ⟨_, _, _, ⟨_, -, _, hm', _, hargs', hnot⟩, -⟩ := hd
      obtain ⟨_, heq, -⟩ := hm'
      cases heq
      obtain ⟨-, rfl⟩ := hargs.unique hargs'
      rw [hk] at hnot
      cases hnot
    · exact ⟨d, rfl, .inr ⟨by decide, hd⟩⟩
  | conditional =>
    obtain ⟨-, m, ⟨t, rfl, ht⟩, -⟩ := hopens
    obtain ⟨d, hd, rfl⟩ := (statement_conditional ht).mp h
    exact ⟨d, rfl, .inl ⟨rfl, hd⟩⟩
  | elseIf | otherwise =>
    obtain ⟨-, m, ⟨t, rfl, ht⟩, -⟩ := hopens
    simp [endsStatements, ht] at hhead
  | root | importDecl | exportDecl | variableDecl | externDecl | macroCall | directive | useDecl
  | funCall | methodReference | element => exact hopens.elim

theorem BlockAt.unique {kind kind' : NodeKind} {d d' : Construct} {q' : List Token}
    (h : BlockAt n kind ts d q) (h' : BlockAt n kind' ts d' q') : kind = kind' ∧ q = q' := by
  obtain ⟨_, k, _, _, hopens, hblock, -⟩ := h
  obtain ⟨_, k', _, _, hopens', hblock', -⟩ := h'
  obtain ⟨rfl, -, rfl⟩ := hopens.unique hopens'
  exact ⟨rfl, (hblock.unique hblock').2⟩

/-- Statements follow one another up to the closing brace. -/
theorem gives_blockRest {closing : Nat} {body : List Construct} :
    Gives (blockRest n ts) (closing, body) q ↔
      (Takes (·.isPunct "\x7d") ts q ∧ closing = n - ts.length ∧ body = []) ∨
      (startsWith "\x7d" ts = false ∧ ∃ c m more, Gives (statement n ts) c m ∧
        Gives (blockRest n m) (closing, more) q ∧ body = c.toList ++ more) := by
  rw [blockRest]
  obtain ⟨hs, hq⟩ | ⟨t, m, rfl, ht, h', hq⟩ := eat_cases "\x7d" ts
  · rw [hq]
    constructor
    · rintro ⟨_, he, hv, rfl⟩
      simp only at he
      split at he
      · cases he
      · obtain ⟨a, h1, he⟩ := bind_eq_ok.mp he
        obtain ⟨b, h2, he⟩ := bind_eq_ok.mp he
        cases he
        cases hv
        exact .inr ⟨hs, _, _, _, ⟨a, h1, rfl, rfl⟩, ⟨b, h2, rfl, rfl⟩, rfl⟩
    · rintro (⟨⟨t, rfl, ht⟩, -⟩ | ⟨-, _, _, _, ⟨a, h1, rfl, rfl⟩, ⟨b, h2, hb, rfl⟩, rfl⟩)
      · simp [startsWith, ht] at hs
      · obtain ⟨rfl, rfl⟩ := Prod.mk.inj hb
        have hne : ts.isEmpty = false := by
          cases ts with
          | nil =>
            rw [statement] at h1
            cases h1
          | cons t ts => rfl
        simp only [hne]
        exact bind_succeeds h1 (bind_succeeds h2 ⟨_, rfl, rfl, rfl⟩)
  · rw [hq]
    constructor
    · rintro ⟨_, he, hv, rfl⟩
      cases he
      cases hv
      exact .inl ⟨⟨t, rfl, ht⟩, rfl, rfl⟩
    · rintro (⟨⟨_, h, -⟩, rfl, rfl⟩ | ⟨hs, -⟩)
      · cases h
        exact ⟨_, rfl, rfl, rfl⟩
      · simp [startsWith, ht] at hs

/-- Clauses follow an `if` up to the first word that is no `else`, or up to an `else` without `if`. -/
theorem gives_clauses {cs : List Construct} : GivesAny (clauses n ts) cs q ↔
    (ts.head?.any (·.isWord "else") = false ∧ cs = [] ∧ ts = q) ∨
    (∃ d m more, BlockAt n .elseIf ts d m ∧ GivesAny (clauses n m) more q ∧ cs = d :: more) ∨
    ∃ d, BlockAt n .otherwise ts d q ∧ cs = [d] := by
  rw [clauses]
  obtain ⟨hs, hq⟩ | ⟨t, m, rfl, ht, h', hq⟩ := eatIf_cases (·.isWord "else") ts
  · rw [hq]
    constructor
    · rintro ⟨_, he, rfl, rfl⟩
      cases he
      exact .inl ⟨hs, rfl, rfl⟩
    · rintro (⟨-, rfl, rfl⟩ | ⟨_, _, _, ⟨_, _, _, _, ⟨-, _, ⟨t, rfl, ht⟩, -⟩, -⟩, -⟩ |
        ⟨_, ⟨_, _, _, _, ⟨-, _, ⟨t, rfl, ht⟩, -⟩, -⟩, -⟩)
      · exact ⟨_, rfl, rfl, rfl⟩
      · simp [ht] at hs
      · simp [ht] at hs
  · rw [hq]
    obtain ⟨hs, hq⟩ | ⟨u, k, rfl, hu, h'', hq⟩ := eatIf_cases (·.isWord "if") m
    · simp only [hq]
      constructor
      · rintro ⟨_, he, rfl, rfl⟩
        obtain ⟨a, h1, he⟩ := bind_eq_ok.mp he
        obtain ⟨b, h2, he⟩ := bind_eq_ok.mp he
        cases he
        exact .inr (.inr ⟨_, ⟨_, _, _, _, ⟨rfl, _, ⟨t, rfl, ht⟩, hs, a, h1, rfl⟩, ⟨b, h2, rfl, rfl⟩, rfl⟩,
          rfl⟩)
      · rintro (⟨h, -⟩ | ⟨_, _, _, ⟨_, _, _, _, ⟨-, _, ⟨_, h, -⟩, _, ⟨u, hu, hu'⟩, -⟩, -⟩, -⟩ |
          ⟨_, ⟨_, _, _, _, ⟨rfl, _, ⟨_, h, -⟩, -, a, h1, rfl⟩, ⟨b, h2, hb, rfl⟩, rfl⟩, rfl⟩)
        · simp [ht] at h
        · cases h
          simp [hu, hu'] at hs
        · cases h
          obtain ⟨rfl, rfl⟩ := Prod.mk.inj hb
          exact bind_succeeds h1 (bind_succeeds h2 ⟨_, rfl, rfl, rfl⟩)
    · simp only [hq]
      constructor
      · rintro ⟨_, he, rfl, rfl⟩
        obtain ⟨a, h1, he⟩ := bind_eq_ok.mp he
        obtain ⟨b, h2, he⟩ := bind_eq_ok.mp he
        obtain ⟨d, h3, he⟩ := bind_eq_ok.mp he
        cases he
        exact .inr (.inl ⟨_, _, _, ⟨_, _, _, _, ⟨rfl, _, ⟨t, rfl, ht⟩, _, ⟨u, rfl, hu⟩, a, h1, rfl⟩,
          ⟨b, h2, rfl, rfl⟩, rfl⟩, ⟨d, h3, rfl, rfl⟩, rfl⟩)
      · rintro (⟨h, -⟩ | ⟨_, _, _, ⟨_, _, _, _, ⟨rfl, _, ⟨_, h, -⟩, _, ⟨_, h', -⟩, a, h1, rfl⟩,
          ⟨b, h2, hb, rfl⟩, rfl⟩, ⟨d, h3, rfl, rfl⟩, rfl⟩ |
          ⟨_, ⟨_, _, _, _, ⟨-, _, ⟨_, h, -⟩, hnot, -⟩, -⟩, -⟩)
        · simp [ht] at h
        · cases h
          cases h'
          obtain ⟨rfl, rfl⟩ := Prod.mk.inj hb
          exact bind_succeeds h1 (bind_succeeds h2 (bind_succeeds h3 ⟨_, rfl, rfl, rfl⟩))
        · cases h
          simp [hu] at hnot

/-- Statements follow one another up to the end. -/
theorem statements_iff {cs : List Construct} : statements n ts = .ok cs ↔
    (ts = [] ∧ cs = []) ∨ ∃ c m more, Gives (statement n ts) c m ∧ statements n m = .ok more ∧
      cs = c.toList ++ more := by
  rw [statements]
  cases ts with
  | nil =>
    constructor
    · intro h
      cases h
      exact .inl ⟨rfl, rfl⟩
    · rintro (⟨-, rfl⟩ | ⟨c, m, more, h, -⟩)
      · rfl
      · exact absurd h.length_lt (Nat.not_lt_zero _)
  | cons t r =>
    constructor
    · intro h
      obtain ⟨a, h1, h⟩ := bind_eq_ok.mp h
      obtain ⟨more, h2, h⟩ := bind_eq_ok.mp h
      cases h
      exact .inr ⟨_, _, more, ⟨a, h1, rfl, rfl⟩, h2, rfl⟩
    · rintro (⟨h, -⟩ | ⟨_, _, more, ⟨a, h1, rfl, rfl⟩, h2, rfl⟩)
      · cases h
      · exact bind_eq_ok.mpr ⟨a, h1, bind_eq_ok.mpr ⟨more, h2, rfl⟩⟩

end
end ModWeave.Script
