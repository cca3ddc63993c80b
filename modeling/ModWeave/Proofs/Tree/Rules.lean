import ModWeave.Proofs.Tree.Derivation
import ModWeave.Proofs.Tree.Run

/-! The grammar of scripts, and the readers told by it: what a reader passes, the grammar derives. -/
namespace ModWeave.Script

inductive Category where
  | script
  | statement
  | block
  | values
  | params
  | expression
  | unary
  | primary

open Pattern

def keywords : List String := ["import", "export", "extern", "sub", "use", "if", "else"]

def ident : Pattern Category := any .ident

/-- An identifier that is no keyword. -/
def plainName : Pattern Category := lexeme fun x => x.1 == .ident && !keywords.contains x.2

def unaryOperator : Pattern Category := signs ["~", "!", "-", "+"]

def binaryOperator : Pattern Category :=
  signs ["+", "-", "*", "/", "%", "&", "|", "^", "&&", "||", "==", "!=", "<", ">", "<=", ">="]

def bracketed (a : Pattern Category) : Pattern Category := row [sign "(", a, sign ")"]

def assigned : Pattern Category := row [sign "=", category .expression]

/-- An operator with its operand. -/
def operation : Pattern Category := row [binaryOperator, category .unary]

/-- A field, an argument list or a subscript. -/
def access : Pattern Category :=
  oneOf [row [sign ".", ident], bracketed (category .values),
    row [sign "[", category .expression, sign "]"]]

/-- A value, with a name or without. -/
def value : Pattern Category := row [maybe (row [ident, sign "="]), category .expression]

def param : Pattern Category := row [ident, maybe ident, maybe assigned]

def elseIf : Pattern Category :=
  row [word "else", word "if", bracketed (category .expression), category .block]

def otherwise : Pattern Category :=
  row [word "else", maybe (bracketed (category .values)), category .block]

/-- What the categories stand for. -/
def rules : Category → Pattern Category
  | .script => many (category .statement)
  | .statement => oneOf [
      sign ";",
      row [sign "!", ident, bracketed (category .values), maybe (sign ";")],
      row [any .macroName, bracketed (maybe (category .expression)), maybe (sign ";")],
      row [word "import", any .str, maybe (sign ";")],
      row [word "export", ident, ident, assigned, maybe (sign ";")],
      row [word "extern", ident, ident, maybe (sign ";")],
      row [word "sub", ident, bracketed (category .params), category .block],
      row [word "use", ident, bracketed (category .values), maybe (sign ";")],
      row [word "if", bracketed (category .expression), category .block, many elseIf, maybe otherwise],
      row [plainName, ident, maybe assigned, maybe (sign ";")],
      row [plainName, sign "::", ident, bracketed (category .values), maybe (sign ";")],
      row [plainName, bracketed (category .values), either (category .block) (maybe (sign ";"))]]
  | .block => row [sign "\x7b", many (category .statement), sign "\x7d"]
  | .values => commaList value
  | .params => commaList param
  | .expression => row [category .unary, many operation,
      maybe (row [sign "?", category .expression, sign ":", category .expression])]
  | .unary => row [many unaryOperator, category .primary, many access]
  | .primary => oneOf [any .number, any .str, any .macroName,
      row [ident, maybe (row [sign "::", ident])], bracketed (category .expression),
      row [sign "[", category .values, sign "]"]]

section

variable {ts r : List Token} {a : Pattern Category}

/-! What each category stands for, in the words of the readers. -/

theorem passes_ident : Passes rules ident ts r ↔ Takes (·.kind == .ident) ts r := passes_any

theorem passes_bracketed : Passes rules (bracketed a) ts r ↔ ∃ m, Takes (·.isPunct "(") ts m ∧
    ∃ k, Passes rules a m k ∧ Takes (·.isPunct ")") k r := by
  simp only [bracketed, passes_row_cons, passes_row_nil, passes_sign, exists_eq_right]

theorem passes_assigned : Passes rules assigned ts r ↔
    ∃ m, Takes (·.isPunct "=") ts m ∧ Passes rules (category .expression) m r := by
  simp only [assigned, passes_row_cons, passes_row_nil, passes_sign, exists_eq_right]

theorem passes_binaryOperator : Passes rules binaryOperator ts r ↔ Takes isBinaryOperator ts r :=
  passes_signs

theorem passes_plainName : Passes rules plainName ts r ↔ Takes (isKeyword none) ts r := by
  have hword (x : String) : (!keywords.contains x) = decide (keyword? x = none) := by
    unfold keyword?
    split <;> simp_all [keywords]
  rw [plainName, passes_lexeme]
  simp only [hword]
  exact Iff.rfl

theorem passes_operation : Passes rules operation ts r ↔
    ∃ m, Takes isBinaryOperator ts m ∧ Passes rules (category .unary) m r := by
  simp only [operation, passes_row_cons, passes_row_nil, passes_binaryOperator, exists_eq_right]

theorem passes_expression : Passes rules (category .expression) ts r ↔
    ∃ m, Passes rules (category .unary) ts m ∧ ∃ k, Passes rules (many operation) m k ∧
      ((∃ a, Takes (·.isPunct "?") k a ∧ ∃ b, Passes rules (category .expression) a b ∧
        ∃ c, Takes (·.isPunct ":") b c ∧ Passes rules (category .expression) c r) ∨ k = r) := by
  rw [passes_category]
  simp only [rules, passes_row_cons, passes_row_nil, passes_maybe, passes_sign, exists_eq_right]

theorem passes_unary : Passes rules (category .unary) ts r ↔
    ∃ m, Passes rules (many unaryOperator) ts m ∧
      ∃ k, Passes rules (category .primary) m k ∧ Passes rules (many access) k r := by
  rw [passes_category]
  simp only [rules, passes_row_cons, passes_row_nil, exists_eq_right]

theorem passes_access : Passes rules access ts r ↔
    (∃ m, Takes (·.isPunct ".") ts m ∧ Takes (·.kind == .ident) m r) ∨
    (∃ m, Takes (·.isPunct "(") ts m ∧
      ∃ k, Passes rules (category .values) m k ∧ Takes (·.isPunct ")") k r) ∨
    ∃ m, Takes (·.isPunct "[") ts m ∧
      ∃ k, Passes rules (category .expression) m k ∧ Takes (·.isPunct "]") k r := by
  simp only [access, passes_oneOf, List.mem_cons, List.not_mem_nil, or_false, exists_eq_or_imp,
    exists_eq_left, passes_row_cons, passes_row_nil, passes_sign, passes_ident, passes_bracketed,
    exists_eq_right]

theorem passes_primary : Passes rules (category .primary) ts r ↔
    Takes (·.kind == .number) ts r ∨ Takes (·.kind == .str) ts r ∨ Takes (·.kind == .macroName) ts r ∨
    (∃ m, Takes (·.kind == .ident) ts m ∧
      ((∃ k, Takes (·.isPunct "::") m k ∧ Takes (·.kind == .ident) k r) ∨ m = r)) ∨
    (∃ m, Takes (·.isPunct "(") ts m ∧
      ∃ k, Passes rules (category .expression) m k ∧ Takes (·.isPunct ")") k r) ∨
    ∃ m, Takes (·.isPunct "[") ts m ∧
      ∃ k, Passes rules (category .values) m k ∧ Takes (·.isPunct "]") k r := by
  rw [passes_category]
  simp only [rules, passes_oneOf, List.mem_cons, List.not_mem_nil, or_false, exists_eq_or_imp,
    exists_eq_left, passes_row_cons, passes_row_nil, passes_any, passes_sign, passes_ident,
    passes_maybe, passes_bracketed, exists_eq_right]

theorem passes_value : Passes rules value ts r ↔
    (∃ m, Takes (·.kind == .ident) ts m ∧
      ∃ k, Takes (·.isPunct "=") m k ∧ Passes rules (category .expression) k r) ∨
    Passes rules (category .expression) ts r := by
  simp only [value, passes_row_cons, passes_row_nil, passes_maybe, passes_ident, passes_sign,
    exists_eq_right, or_and_right, exists_or, exists_eq_left']
  refine or_congr_left ⟨?_, ?_⟩
  · rintro ⟨k, ⟨m, hm, hk⟩, hr⟩
    exact ⟨m, hm, k, hk, hr⟩
  · rintro ⟨m, hm, k, hk, hr⟩
    exact ⟨k, ⟨m, hm, hk⟩, hr⟩

theorem passes_param : Passes rules param ts r ↔ ∃ m, Takes (·.kind == .ident) ts m ∧
    ∃ k, (Takes (·.kind == .ident) m k ∨ m = k) ∧ (Passes rules assigned k r ∨ k = r) := by
  simp only [param, passes_row_cons, passes_row_nil, passes_maybe, passes_ident, exists_eq_right]

theorem passes_values : Passes rules (category .values) ts r ↔ ts = r ∨ ∃ m, Passes rules value ts m ∧
    (m = r ∨ ∃ k, Takes (·.isPunct ",") m k ∧ Passes rules (category .values) k r) := by
  simp only [passes_category, rules]
  exact passes_commaList

theorem passes_params : Passes rules (category .params) ts r ↔ ts = r ∨ ∃ m, Passes rules param ts m ∧
    (m = r ∨ ∃ k, Takes (·.isPunct ",") m k ∧ Passes rules (category .params) k r) := by
  simp only [passes_category, rules]
  exact passes_commaList

/-! What the readers of expressions and lists pass is derived. -/

/-- A name that was read. -/
private theorem takes_of_names {e : Expectation} {x : String}
    (h : Names (expectKind .ident e ts) x r) : Takes (·.kind == .ident) ts r := by
  obtain ⟨t, h, -⟩ := h
  obtain ⟨rfl, hk⟩ := gives_expectKind.mp h
  exact ⟨t, rfl, beq_iff_eq.mpr hk⟩

/-- The readers of expressions from `ts` on pass what the grammar derives. -/
structure ExpressionsDerived (ts : List Token) : Prop where
  expression {r : List Token} (h : Leaves (expression ts) r) :
    Passes rules (category .expression) ts r
  operations {r : List Token} (h : LeavesAny (operations ts) r) : Passes rules (many operation) ts r
  operand {r : List Token} (h : Leaves (operand ts) r) : Passes rules (category .unary) ts r
  accesses {r : List Token} (h : LeavesAny (accesses ts) r) : Passes rules (many access) ts r
  primary {r : List Token} (h : Leaves (primary ts) r) : Passes rules (category .primary) ts r
  values {close : String} {first : Option String} {r : List Token}
    (h : GivesValues (values close ts) first r) : Passes rules (category .values) ts r

/-! One case for each reader, where whatever is read of less than `ts` is derived. -/

section Shorter

variable (ih : ∀ m : List Token, m.length < ts.length → ExpressionsDerived m)

include ih

private theorem derived_accesses (h : LeavesAny (accesses ts) r) :
    Passes rules (many access) ts r := by
  obtain ⟨m, hm, k, ⟨x, hk⟩, hr⟩ | ⟨m, hm, k, ⟨f, hk⟩, l, hl, hr⟩ | ⟨m, hm, k, hk, l, hl, hr⟩ |
    ⟨-, -, -, rfl⟩ := (accesses_iff ts r).mp h
  · have h1 := hm.length_lt
    have hk := takes_of_names hk
    have h2 := hk.length_lt
    exact passes_many.mpr (.inr ⟨k, passes_access.mpr (.inl ⟨m, hm, hk⟩),
      (ih k (by omega)).accesses hr⟩)
  · have h1 := hm.length_lt
    have h2 := hk.length_le
    have h3 := hl.length_lt
    exact passes_many.mpr (.inr ⟨l, passes_access.mpr (.inr (.inl ⟨m, hm, k,
      (ih m h1).values hk, leaves_expectSign.mp hl⟩)), (ih l (by omega)).accesses hr⟩)
  · have h1 := hm.length_lt
    have h2 := hk.length_lt
    have h3 := hl.length_lt
    exact passes_many.mpr (.inr ⟨l, passes_access.mpr (.inr (.inr ⟨m, hm, k,
      (ih m h1).expression hk, leaves_expectSign.mp hl⟩)), (ih l (by omega)).accesses hr⟩)
  · exact passes_many.mpr (.inl rfl)

private theorem derived_primary (h : Leaves (primary ts) r) :
    Passes rules (category .primary) ts r := by
  rw [passes_primary]
  obtain ⟨t, rfl, ht⟩ | ⟨m, hm, hr⟩ | ⟨m, hm, k, hk, hr⟩ | ⟨m, hm, k, ⟨f, hk⟩, hr⟩ :=
    (primary_iff ts r).mp h
  · rw [Bool.or_eq_true, Bool.or_eq_true] at ht
    obtain (ht | ht) | ht := ht
    · exact .inl ⟨t, rfl, ht⟩
    · exact .inr (.inl ⟨t, rfl, ht⟩)
    · exact .inr (.inr (.inl ⟨t, rfl, ht⟩))
  · refine .inr (.inr (.inr (.inl ⟨m, hm, ?_⟩)))
    obtain ⟨-, rfl⟩ | ⟨k, hk, x, hx⟩ := hr
    · exact .inr rfl
    · exact .inl ⟨k, hk, takes_of_names hx⟩
  · exact .inr (.inr (.inr (.inr (.inl ⟨m, hm, k, (ih m hm.length_lt).expression hk,
      leaves_expectSign.mp hr⟩))))
  · exact .inr (.inr (.inr (.inr (.inr ⟨m, hm, k, (ih m hm.length_lt).values hk,
      leaves_expectSign.mp hr⟩))))

private theorem derived_operand (h : Leaves (operand ts) r) :
    Passes rules (category .unary) ts r := by
  obtain ⟨m, hm, k, hk, hr⟩ := (operand_iff ts r).mp h
  have hsuffix : m <:+ ts := hm ▸ List.dropWhile_suffix _
  have h1 := hsuffix.length_le
  have h2 := hk.length_lt
  refine passes_unary.mpr ⟨m, ?_, k, ?_, (ih k (by omega)).accesses hr⟩
  · refine passes_many_lexeme.mpr ⟨ts.takeWhile isUnaryOperator, ?_, fun t ht => ?_⟩
    · rw [← hm, List.takeWhile_append_dropWhile]
    · exact List.all_eq_true.mp List.all_takeWhile t ht
  · rcases Nat.lt_or_eq_of_le h1 with hlt | heq
    · exact (ih m hlt).primary hk
    · obtain rfl := hsuffix.eq_of_length heq
      exact derived_primary ih hk

private theorem derived_operations (h : LeavesAny (operations ts) r) :
    Passes rules (many operation) ts r := by
  obtain ⟨-, rfl⟩ | ⟨m, hm, k, hk, hr⟩ := (operations_iff ts r).mp h
  · exact passes_many.mpr (.inl rfl)
  · have h1 := hm.length_lt
    have h2 := hk.length_lt
    exact passes_many.mpr (.inr ⟨k, passes_operation.mpr ⟨m, hm, (ih m h1).operand hk⟩,
      (ih k (by omega)).operations hr⟩)

private theorem derived_expression (h : Leaves (expression ts) r) :
    Passes rules (category .expression) ts r := by
  obtain ⟨m, hm, k, hk, hr⟩ := (expression_iff ts r).mp h
  have h1 := hm.length_lt
  refine passes_expression.mpr ⟨m, derived_operand ih hm, k, (ih m h1).operations hk, ?_⟩
  obtain ⟨-, rfl⟩ | ⟨a, ha, b, hb, c, hc, hr⟩ := hr
  · exact .inr rfl
  · have h2 := hk.length_le
    have h3 := ha.length_lt
    have h4 := hb.length_lt
    have h5 := hc.length_lt
    exact .inl ⟨a, ha, b, (ih a (by omega)).expression hb, c, leaves_expectSign.mp hc,
      (ih c (by omega)).expression hr⟩

private theorem derived_values {close : String} {first : Option String}
    (h : GivesValues (values close ts) first r) : Passes rules (category .values) ts r := by
  obtain ⟨-, -, rfl⟩ | ⟨-, k, ⟨hk, -⟩, hr⟩ := values_iff.mp h
  · exact passes_values.mpr (.inl rfl)
  · have h1 := hk.length_lt
    refine passes_values.mpr (.inr ⟨k, passes_value.mpr ?_, ?_⟩)
    · obtain ⟨m, hm, l, hl, hr⟩ | ⟨-, hr⟩ := hk
      · have h2 := hm.length_lt
        have h3 := hl.length_lt
        exact .inl ⟨m, hm, l, hl, (ih l (by omega)).expression hr⟩
      · exact .inr (derived_expression ih hr)
    · obtain ⟨-, rfl⟩ | ⟨m, hm, f, hr⟩ := hr
      · exact .inl rfl
      · have h2 := hm.length_lt
        exact .inr ⟨m, hm, (ih m (by omega)).values hr⟩

end Shorter

theorem expressionsDerived (ts : List Token) : ExpressionsDerived ts := by
  induction hn : ts.length using Nat.strongRecOn generalizing ts with
  | ind n ih =>
    subst hn
    replace ih (m : List Token) (hm : m.length < ts.length) : ExpressionsDerived m := ih _ hm m rfl
    exact { expression := derived_expression ih, operations := derived_operations ih, operand := derived_operand ih,
            accesses := derived_accesses ih, primary := derived_primary ih, values := derived_values ih }

theorem derived_defaultValue (h : LeavesAny (defaultValue ts) r) :
    Passes rules assigned ts r ∨ ts = r := by
  obtain ⟨-, rfl⟩ | ⟨m, hm, hr⟩ := (defaultValue_iff ts r).mp h
  · exact .inr rfl
  · exact .inl (passes_assigned.mpr ⟨m, hm, (expressionsDerived m).expression hr⟩)

theorem derived_params (h : LeavesAny (params ts) r) : Passes rules (category .params) ts r := by
  induction hn : ts.length using Nat.strongRecOn generalizing ts with
  | ind n ih =>
    subst hn
    obtain ⟨-, rfl⟩ | ⟨-, m, ⟨x, hm⟩, k, hk, l, hl, hr⟩ := (params_iff ts r).mp h
    · exact passes_params.mpr (.inl rfl)
    · have hm := takes_of_names hm
      have h1 := hm.length_lt
      have h2 : k.length ≤ m.length := by
        obtain ⟨-, rfl⟩ | hk := hk
        · exact Nat.le_refl _
        · exact Nat.le_of_lt hk.length_lt
      have h3 := hl.length_le
      refine passes_params.mpr (.inr ⟨l, passes_param.mpr ⟨m, hm, k, ?_, derived_defaultValue hl⟩, ?_⟩)
      · obtain ⟨-, rfl⟩ | hk := hk
        · exact .inr rfl
        · exact .inl hk
      · obtain ⟨-, rfl⟩ | ⟨q, hq, hr⟩ := hr
        · exact .inl rfl
        · have h4 := hq.length_lt
          exact .inr ⟨q, hq, ih q.length (by omega) hr rfl⟩

/-! Statements. A leaf is told up to its end, a block up to its body. -/

/-- What a leaf is, up to the `;` that may end it. -/
def leafRow : NodeKind → List (Pattern Category)
  | .directive => [sign "!", ident, bracketed (category .values)]
  | .macroCall => [any .macroName, bracketed (maybe (category .expression))]
  | .importDecl => [word "import", any .str]
  | .exportDecl => [word "export", ident, ident, assigned]
  | .externDecl => [word "extern", ident, ident]
  | .useDecl => [word "use", ident, bracketed (category .values)]
  | .variableDecl => [plainName, ident, maybe assigned]
  | .methodReference => [plainName, sign "::", ident, bracketed (category .values)]
  | .funCall => [plainName, bracketed (category .values)]
  | _ => [oneOf []]

/-- What stands before the body of a block. -/
def openingRow : NodeKind → List (Pattern Category)
  | .sub => [word "sub", ident, bracketed (category .params)]
  | .funBlock => [plainName, bracketed (category .values)]
  | .conditional => [word "if", bracketed (category .expression)]
  | .elseIf => [word "else", word "if", bracketed (category .expression)]
  | .otherwise => [word "else", maybe (bracketed (category .values))]
  | _ => [oneOf []]

/-- A block without clauses. -/
def blockRow (kind : NodeKind) : List (Pattern Category) := openingRow kind ++ [category .block]

theorem passes_statement : Passes rules (category .statement) ts r ↔
    Takes (·.isPunct ";") ts r ∨
    (∃ kind m, Passes rules (row (leafRow kind)) ts m ∧ (Takes (·.isPunct ";") m r ∨ m = r)) ∨
    (∃ kind, (kind = .sub ∨ kind = .funBlock) ∧ Passes rules (row (blockRow kind)) ts r) ∨
    Passes rules (row (blockRow .conditional ++ [many elseIf, maybe otherwise])) ts r := by
  have hleaf (kind : NodeKind) : Passes rules (row (leafRow kind ++ [maybe (sign ";")])) ts r ↔
      ∃ m, Passes rules (row (leafRow kind)) ts m ∧ (Takes (·.isPunct ";") m r ∨ m = r) := by
    simp only [passes_row_append, passes_row_cons, passes_row_nil, passes_maybe, passes_sign,
      exists_eq_right]
  have hcall : Passes rules (row [plainName, bracketed (category .values),
      either (category .block) (maybe (sign ";"))]) ts r ↔
        Passes rules (row (blockRow .funBlock)) ts r ∨
          Passes rules (row (leafRow .funCall ++ [maybe (sign ";")])) ts r := by
    simp only [blockRow, openingRow, leafRow, List.cons_append, List.nil_append, passes_row_cons,
      passes_row_nil, passes_either, exists_eq_right, and_or_left, exists_or]
  simp only [← hleaf]
  rw [passes_category, rules, passes_oneOf]
  constructor
  · rintro ⟨a, ha, h⟩
    simp only [List.mem_cons, List.not_mem_nil, or_false] at ha
    obtain rfl | rfl | rfl | rfl | rfl | rfl | rfl | rfl | rfl | rfl | rfl | rfl := ha
    · exact .inl (passes_sign.mp h)
    · exact .inr (.inl ⟨.directive, h⟩)
    · exact .inr (.inl ⟨.macroCall, h⟩)
    · exact .inr (.inl ⟨.importDecl, h⟩)
    · exact .inr (.inl ⟨.exportDecl, h⟩)
    · exact .inr (.inl ⟨.externDecl, h⟩)
    · exact .inr (.inr (.inl ⟨.sub, .inl rfl, h⟩))
    · exact .inr (.inl ⟨.useDecl, h⟩)
    · exact .inr (.inr (.inr h))
    · exact .inr (.inl ⟨.variableDecl, h⟩)
    · exact .inr (.inl ⟨.methodReference, h⟩)
    · obtain h | h := hcall.mp h
      · exact .inr (.inr (.inl ⟨.funBlock, .inr rfl, h⟩))
      · exact .inr (.inl ⟨.funCall, h⟩)
  · rintro (h | ⟨kind, h⟩ | ⟨kind, rfl | rfl, h⟩ | h)
    · exact ⟨sign ";", by simp, passes_sign.mpr h⟩
    · cases kind with
      | funCall => exact ⟨_, by simp, hcall.mpr (.inr h)⟩
      | directive | macroCall | importDecl | exportDecl | externDecl | useDecl | variableDecl
      | methodReference => exact ⟨_, by simp [leafRow], h⟩
      | root | sub | funBlock | conditional | elseIf | otherwise | element =>
        simp [leafRow, passes_oneOf] at h
    · exact ⟨_, by simp [blockRow, openingRow], h⟩
    · exact ⟨_, by simp, hcall.mpr (.inl h)⟩
    · exact ⟨_, by simp [blockRow, openingRow], h⟩

/-- How a keyword is written. -/
def Keyword.text : Keyword → String
  | .importDecl => "import"
  | .exportDecl => "export"
  | .externDecl => "extern"
  | .sub => "sub"
  | .useDecl => "use"
  | .conditional => "if"
  | .otherwise => "else"

theorem isKeyword_some (k : Keyword) : isKeyword (some k) = fun t => t.isWord k.text := by
  have hword (x : String) : decide (keyword? x = some k) = (x == k.text) := by
    unfold keyword?
    split <;> cases k <;> simp_all [Keyword.text]
  funext t
  rw [isKeyword, Token.isWord, hword]

theorem derived_arguments {args : String} {first : Option String} (h : Arguments args first ts r) :
    Passes rules (bracketed (category .values)) ts r := by
  obtain ⟨m, hm, k, ⟨hk, -⟩, hr⟩ := h
  exact passes_bracketed.mpr ⟨m, leaves_expectSign.mp hm, k, (expressionsDerived m).values hk,
    leaves_expectSign.mp hr⟩

private theorem passes_keyword {k : Keyword} (h : Takes (isKeyword (some k)) ts r) :
    Passes rules (word k.text) ts r := by
  rw [isKeyword_some] at h
  exact passes_word.mpr h

private theorem passes_name {x : String}
    (h : Takes (fun t => isKeyword none t && t.lexeme == x) ts r) : Passes rules plainName ts r := by
  obtain ⟨t, rfl, ht⟩ := h
  exact passes_plainName.mpr ⟨t, rfl, (Bool.and_eq_true_iff.mp ht).1⟩

theorem derived_leafBody {kind : NodeKind} {tag : String} {first : Option String}
    (h : LeafBody kind tag first ts r) : Passes rules (row (leafRow kind)) ts r := by
  cases kind with
  | importDecl =>
    obtain ⟨-, m, hm, x, -, t, ht, -⟩ := h
    obtain ⟨rfl, hk⟩ := gives_expectKind.mp ht
    simp only [leafRow, passes_row_cons, passes_row_nil, exists_eq_right]
    exact ⟨_, passes_keyword hm, passes_any.mpr ⟨t, rfl, beq_iff_eq.mpr hk⟩⟩
  | exportDecl =>
    obtain ⟨-, m, hm, k, ⟨x, hk⟩, l, ⟨y, -, hl⟩, o, ho, hr⟩ := h
    simp only [leafRow, passes_row_cons, passes_row_nil, passes_ident, passes_assigned,
      exists_eq_right]
    exact ⟨m, passes_keyword hm, k, takes_of_names hk, l, takes_of_names hl, o,
      leaves_expectSign.mp ho, (expressionsDerived o).expression hr⟩
  | externDecl =>
    obtain ⟨-, m, hm, x, k, hk, y, -, hr⟩ := h
    simp only [leafRow, passes_row_cons, passes_row_nil, passes_ident, exists_eq_right]
    exact ⟨m, passes_keyword hm, k, takes_of_names hk, takes_of_names hr⟩
  | useDecl =>
    obtain ⟨-, m, hm, x, k, hk, args, -, f, hr⟩ := h
    simp only [leafRow, passes_row_cons, passes_row_nil, passes_ident, exists_eq_right]
    exact ⟨m, passes_keyword hm, k, takes_of_names hk, derived_arguments hr⟩
  | directive =>
    obtain ⟨-, m, hm, x, k, hk, args, -, f, hr⟩ := h
    simp only [leafRow, passes_row_cons, passes_row_nil, passes_ident, exists_eq_right]
    exact ⟨m, passes_sign.mpr hm, k, takes_of_names hk, derived_arguments hr⟩
  | macroCall =>
    obtain ⟨-, x, -, m, ⟨t, rfl, ht⟩, k, hk, l, hl, hr⟩ := h
    simp only [leafRow, passes_row_cons, passes_row_nil, passes_bracketed, passes_maybe, passes_any,
      exists_eq_right]
    refine ⟨m, ⟨t, rfl, (Bool.and_eq_true_iff.mp ht).1⟩, k, leaves_expectSign.mp hk, l, ?_,
      leaves_expectSign.mp hr⟩
    obtain ⟨-, rfl⟩ | ⟨-, hl⟩ := (optionalExpression_iff k l).mp hl
    · exact .inr rfl
    · exact .inl ((expressionsDerived k).expression hl)
  | variableDecl =>
    obtain ⟨-, x, m, hm, y, k, ⟨-, hk⟩, hr⟩ := h
    simp only [leafRow, passes_row_cons, passes_row_nil, passes_ident, passes_maybe, exists_eq_right]
    exact ⟨m, passes_name hm, k, takes_of_names hk, derived_defaultValue hr⟩
  | methodReference =>
    obtain ⟨-, x, m, hm, k, hk, y, l, ⟨-, hl⟩, args, f, hr⟩ := h
    simp only [leafRow, passes_row_cons, passes_row_nil, passes_ident, passes_sign, exists_eq_right]
    exact ⟨m, passes_name hm, k, leaves_expectSign.mp hk, l, takes_of_names hl, derived_arguments hr⟩
  | funCall =>
    obtain ⟨x, -, m, hm, args, hr, -⟩ := h
    simp only [leafRow, passes_row_cons, passes_row_nil, exists_eq_right]
    exact ⟨m, passes_name hm, derived_arguments hr⟩
  | root | sub | funBlock | conditional | elseIf | otherwise | element => exact h.elim

theorem derived_condition (h : Leaves (condition ts) r) :
    Passes rules (bracketed (category .expression)) ts r := by
  obtain ⟨m, hm, k, hk, hr⟩ := (condition_iff ts r).mp h
  exact passes_bracketed.mpr ⟨m, leaves_expectSign.mp hm, k, (expressionsDerived m).expression hk,
    leaves_expectSign.mp hr⟩

theorem derived_opens {kind : NodeKind} {tag : String} (h : Opens kind tag ts r) :
    Passes rules (row (openingRow kind)) ts r := by
  cases kind with
  | sub =>
    obtain ⟨m, hm, x, k, ⟨-, hk⟩, l, hl, o, ho, hr⟩ := h
    simp only [openingRow, passes_row_cons, passes_row_nil, passes_ident, passes_bracketed,
      exists_eq_right]
    exact ⟨m, passes_keyword hm, k, takes_of_names hk, l, leaves_expectSign.mp hl, o,
      derived_params ho, leaves_expectSign.mp hr⟩
  | funBlock =>
    obtain ⟨x, m, hm, args, -, f, hr⟩ := h
    simp only [openingRow, passes_row_cons, passes_row_nil, exists_eq_right]
    exact ⟨m, passes_name hm, derived_arguments hr⟩
  | conditional =>
    obtain ⟨-, m, hm, hr⟩ := h
    simp only [openingRow, passes_row_cons, passes_row_nil, exists_eq_right]
    exact ⟨m, passes_keyword hm, derived_condition hr⟩
  | elseIf =>
    obtain ⟨-, m, hm, k, hk, hr⟩ := h
    simp only [openingRow, passes_row_cons, passes_row_nil, passes_word, exists_eq_right]
    exact ⟨m, hm, k, hk, derived_condition hr⟩
  | otherwise =>
    obtain ⟨-, m, hm, -, hr⟩ := h
    simp only [openingRow, passes_row_cons, passes_row_nil, passes_word, passes_maybe, exists_eq_right]
    refine ⟨m, hm, ?_⟩
    obtain ⟨-, args, first, hr⟩ | ⟨-, rfl⟩ := (optionalArguments_iff m r).mp hr
    · exact .inl (derived_arguments hr)
    · exact .inr rfl
  | root | importDecl | exportDecl | variableDecl | externDecl | macroCall | directive | useDecl
  | funCall | methodReference | element => exact h.elim

theorem passes_blockRow {kind : NodeKind} : Passes rules (row (blockRow kind)) ts r ↔
    ∃ m, Passes rules (row (openingRow kind)) ts m ∧ Passes rules (category .block) m r := by
  simp only [blockRow, passes_row_append, passes_row_cons, passes_row_nil, exists_eq_right]

theorem passes_block : Passes rules (category .block) ts r ↔ ∃ m, Takes (·.isPunct "\x7b") ts m ∧
    ∃ k, Passes rules (many (category .statement)) m k ∧ Takes (·.isPunct "\x7d") k r := by
  rw [passes_category]
  simp only [rules, passes_row_cons, passes_row_nil, passes_sign, exists_eq_right]

/-- The clauses behind an `if`: any number of `else if`, and an `else` or none. -/
theorem passes_clauses : Passes rules (row [many elseIf, maybe otherwise]) ts r ↔
    (∃ m, Passes rules (row (blockRow .elseIf)) ts m ∧
      Passes rules (row [many elseIf, maybe otherwise]) m r) ∨
    Passes rules (row (blockRow .otherwise)) ts r ∨ ts = r := by
  have hiff (ts : List Token) : Passes rules (row [many elseIf, maybe otherwise]) ts r ↔
      ∃ m, Passes rules (many elseIf) ts m ∧ (Passes rules otherwise m r ∨ m = r) := by
    simp only [passes_row_cons, passes_row_nil, passes_maybe, exists_eq_right]
  simp only [hiff]
  constructor
  · rintro ⟨m, hm, hr⟩
    obtain rfl | ⟨k, hk, hm⟩ := passes_many.mp hm
    · exact .inr hr
    · exact .inl ⟨k, hk, m, hm, hr⟩
  · rintro (⟨k, hk, m, hm, hr⟩ | hr)
    · exact ⟨m, passes_many.mpr (.inr ⟨k, hk, hm⟩), hr⟩
    · exact ⟨ts, passes_many.mpr (.inl rfl), hr⟩

/-- The readers of statements from `ts` on pass what the grammar derives. -/
structure StatementsDerived (n : Nat) (ts : List Token) : Prop where
  statement {c : Option Construct} {r : List Token} (h : Gives (statement n ts) c r) :
    Passes rules (category .statement) ts r
  blockRest {body : Nat × List Construct} {r : List Token} (h : Gives (blockRest n ts) body r) :
    ∃ k, Passes rules (many (category .statement)) ts k ∧ Takes (·.isPunct "\x7d") k r
  clauses {cs : List Construct} {r : List Token} (h : GivesAny (clauses n ts) cs r) :
    Passes rules (row [many elseIf, maybe otherwise]) ts r

/-! One case for each reader, where whatever is read of less than `ts` is derived. -/

section Shorter

variable {n : Nat} (ih : ∀ m : List Token, m.length < ts.length → StatementsDerived n m)

include ih

private theorem derived_body {kind : NodeKind} {tag : String} {k : List Token} {braces : Braces}
    {body : List Construct} (hk : Opens kind tag ts k) (h : Gives (block n k) (braces, body) r) :
    Passes rules (row (blockRow kind)) ts r := by
  obtain ⟨m, hm, closing, hr, -⟩ := gives_block.mp h
  have h1 := hk.length_le
  have h2 := hm.length_lt
  exact passes_blockRow.mpr ⟨k, derived_opens hk, passes_block.mpr ⟨m, leaves_expectSign.mp hm,
    (ih m (by omega)).blockRest hr⟩⟩

private theorem derived_blockAt {kind : NodeKind} {c : Construct} (h : BlockAt n kind ts c r) :
    Passes rules (row (blockRow kind)) ts r := by
  obtain ⟨tag, k, braces, body, hk, hr, -⟩ := h
  exact derived_body ih hk hr

private theorem derived_statement {c : Option Construct} (h : Gives (statement n ts) c r) :
    Passes rules (category .statement) ts r := by
  rw [passes_statement]
  obtain ⟨-, h⟩ | ⟨kind, d, ⟨tag, first, k, hk, rfl, -⟩, -⟩ | ⟨kind, d, hkind, h, -⟩ |
    ⟨d, ⟨k, braces, body, m, more, hk, hm, hr, -⟩, -⟩ := gives_statement.mp h
  · exact .inl h
  · refine .inr (.inl ⟨kind, k, derived_leafBody hk, ?_⟩)
    obtain ⟨-, h⟩ | h := skip_cases ";" k
    · exact .inr h.symm
    · exact .inl h
  · exact .inr (.inr (.inl ⟨kind, hkind, derived_blockAt ih h⟩))
  · have h1 := hk.length_le
    have h2 := hm.length_lt
    exact .inr (.inr (.inr (passes_row_append.mpr ⟨m, derived_body ih hk hm,
      (ih m (by omega)).clauses hr⟩)))

private theorem derived_blockRest {body : Nat × List Construct} (h : Gives (blockRest n ts) body r) :
    ∃ k, Passes rules (many (category .statement)) ts k ∧ Takes (·.isPunct "\x7d") k r := by
  obtain ⟨hr, -⟩ | ⟨-, c, m, more, hm, hr, -⟩ := gives_blockRest.mp h
  · exact ⟨ts, passes_many.mpr (.inl rfl), hr⟩
  · obtain ⟨k, hk, hr⟩ := (ih m hm.length_lt).blockRest hr
    exact ⟨k, passes_many.mpr (.inr ⟨m, derived_statement ih hm, hk⟩), hr⟩

private theorem derived_clauses {cs : List Construct} (h : GivesAny (clauses n ts) cs r) :
    Passes rules (row [many elseIf, maybe otherwise]) ts r := by
  rw [passes_clauses]
  obtain ⟨-, -, rfl⟩ | ⟨d, m, more, hm, hr, -⟩ | ⟨d, hr, -⟩ := gives_clauses.mp h
  · exact .inr (.inr rfl)
  · exact .inl ⟨m, derived_blockAt ih hm, (ih m hm.length_lt).clauses hr⟩
  · exact .inr (.inl (derived_blockAt ih hr))

end Shorter

theorem statementsDerived (n : Nat) (ts : List Token) : StatementsDerived n ts := by
  induction hn : ts.length using Nat.strongRecOn generalizing ts with
  | ind l ih =>
    subst hn
    replace ih (m : List Token) (hm : m.length < ts.length) : StatementsDerived n m := ih _ hm m rfl
    exact { statement := derived_statement ih, blockRest := derived_blockRest ih, clauses := derived_clauses ih }

/-- What is read as a script is one. -/
theorem derived_statements {n : Nat} {cs : List Construct} (h : statements n ts = .ok cs) :
    Passes rules (category .script) ts [] := by
  rw [passes_category, rules]
  induction hn : ts.length using Nat.strongRecOn generalizing ts cs with
  | ind l ih =>
    subst hn
    obtain ⟨rfl, -⟩ | ⟨c, m, more, hm, hmore, -⟩ := statements_iff.mp h
    · exact passes_many.mpr (.inl rfl)
    · exact passes_many.mpr (.inr ⟨m, (statementsDerived n ts).statement hm,
        ih m.length hm.length_lt hmore rfl⟩)

end

end ModWeave.Script
