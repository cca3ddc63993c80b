import ModWeave.Proofs.Tree.Rules

/-! What the grammar derives is read. The readers are greedy: each passes what the grammar derives where
no sign comes behind that it could go on with. -/
namespace ModWeave.Script

open Pattern

/-- Whether a token is one of the signs. -/
def isOneOf (xs : List String) (t : Token) : Bool := t.kind == .punct && xs.contains t.lexeme

/-- None of the signs comes first. -/
def Clear (xs : List String) (ts : List Token) : Prop := ts.head?.any (isOneOf xs) = false

section

variable {xs ys : List String} {x : String} {ts r : List Token}

theorem Clear.subset (h : Clear xs ts) (hys : ys ⊆ xs) : Clear ys ts := by
  cases ts with
  | nil => rfl
  | cons t ts =>
    simp only [Clear, List.head?_cons, Option.any_some, isOneOf, Bool.and_eq_false_imp,
      List.contains_eq_mem, decide_eq_false_iff_not] at h ⊢
    exact fun hk hmem => h hk (hys hmem)

theorem Clear.not_startsWith (h : Clear xs ts) (hx : x ∈ xs) : startsWith x ts = false := by
  cases ts with
  | nil => rfl
  | cons t ts =>
    simp only [Clear, List.head?_cons, Option.any_some, isOneOf, Bool.and_eq_false_imp,
      List.contains_eq_mem, decide_eq_false_iff_not] at h
    simp only [startsWith, List.head?_cons, Option.any_some, Token.isPunct,
      Bool.and_eq_false_imp, beq_eq_false_iff_ne]
    rintro hk rfl
    exact h hk hx

/-- Another sign comes first. -/
theorem clear_of_any (h : ts.head?.any (isOneOf ys) = true) (hxs : ∀ y ∈ ys, y ∉ xs) : Clear xs ts := by
  cases ts with
  | nil => rfl
  | cons t ts =>
    simp only [List.head?_cons, Option.any_some, isOneOf, Bool.and_eq_true, List.contains_eq_mem,
      decide_eq_true_eq] at h
    simp only [Clear, List.head?_cons, Option.any_some, isOneOf, h.1,
      List.contains_eq_mem, decide_eq_false_iff_not, Bool.true_and]
    exact hxs _ h.2

theorem clear_of_startsWith (h : startsWith x ts = true) (hx : x ∉ xs) : Clear xs ts := by
  have hone : ts.head?.any (isOneOf [x]) = true := by
    cases ts with
    | nil => cases h
    | cons t ts => simpa [isOneOf, startsWith, Token.isPunct] using h
  exact clear_of_any hone (by simpa using hx)

end

/-! Signs that a reader goes on with. -/

def memberSigns : List String := ["::"]

def accessSigns : List String := [".", "(", "["]

def operandSigns : List String := memberSigns ++ accessSigns

def binarySigns : List String :=
  ["+", "-", "*", "/", "%", "&", "|", "^", "&&", "||", "==", "!=", "<", ">", "<=", ">="]

def operationSigns : List String := operandSigns ++ binarySigns

def expressionSigns : List String := operationSigns ++ ["?"]

/-- Whether a primary expression may start with a token. -/
def beginsPrimary (t : Token) : Bool :=
  t.kind == .number || t.kind == .str || t.kind == .macroName || t.kind == .ident ||
    isOneOf ["(", "["] t

theorem starts_access : Starts rules (isOneOf accessSigns) access := by
  intro ts r h
  obtain ⟨_, ⟨t, rfl, ht⟩, -⟩ | ⟨_, ⟨t, rfl, ht⟩, -⟩ | ⟨_, ⟨t, rfl, ht⟩, -⟩ := passes_access.mp h
  all_goals simp_all [isOneOf, accessSigns, Token.isPunct]

theorem starts_operation : Starts rules (isOneOf binarySigns) operation :=
  .row (.lexeme fun _ ht => ht)

theorem starts_primary : Starts rules beginsPrimary (category .primary) := by
  intro ts r h
  obtain ⟨t, rfl, ht⟩ | ⟨t, rfl, ht⟩ | ⟨t, rfl, ht⟩ | ⟨_, ⟨t, rfl, ht⟩, -⟩ | ⟨_, ⟨t, rfl, ht⟩, -⟩ |
    ⟨_, ⟨t, rfl, ht⟩, -⟩ := passes_primary.mp h
  all_goals simp_all [isOneOf, beginsPrimary, Token.isPunct]

theorem not_isUnaryOperator_of_beginsPrimary {t : Token} (h : beginsPrimary t = true) :
    isUnaryOperator t = false := by
  rw [Bool.eq_false_iff]
  intro hu
  simp only [isUnaryOperator, Bool.and_eq_true, beq_iff_eq, List.contains_eq_mem,
    decide_eq_true_eq] at hu
  obtain ⟨hk, hl⟩ := hu
  have hl' : t.lexeme ∈ ["(", "["] := by
    simpa [beginsPrimary, isOneOf, hk] using h
  simp only [List.mem_cons, List.not_mem_nil, or_false] at hl hl'
  obtain hl' | hl' := hl' <;> simp [hl'] at hl

/-- Whether an expression may start with a token. -/
def beginsExpression (t : Token) : Bool := isUnaryOperator t || beginsPrimary t

theorem starts_expression : Starts rules beginsExpression (category .expression) := by
  refine .category (.row (.category (.row_many (.lexeme fun t ht => ?_) (.row ?_))))
  · rw [beginsExpression, Bool.or_eq_true]
    exact .inl ht
  · intro ts r h
    have hfirst := starts_primary h
    cases ts with
    | nil => exact hfirst
    | cons t ts => simp_all [beginsExpression]

theorem starts_value : Starts rules beginsExpression value := by
  intro ts r h
  obtain ⟨_, ⟨t, rfl, ht⟩, -⟩ | h := passes_value.mp h
  · simp_all [beginsExpression, beginsPrimary]
  · exact starts_expression h

/-- No expression starts with a closing bracket. -/
theorem not_startsWith_of_beginsExpression {close : String} {ts : List Token}
    (h : ts.head?.any beginsExpression = true) (hclose : close = ")" ∨ close = "]") :
    startsWith close ts = false := by
  cases ts with
  | nil => rfl
  | cons t ts =>
    rw [List.head?_cons, Option.any_some] at h
    rw [startsWith, List.head?_cons, Option.any_some, Bool.eq_false_iff]
    intro ht
    simp only [Token.isPunct, Bool.and_eq_true, beq_iff_eq] at ht
    obtain rfl | rfl := hclose <;>
      simp [beginsExpression, beginsPrimary, isUnaryOperator, isOneOf, ht.1, ht.2] at h

/-! The readers of expressions. -/

private theorem names_of_takes {kind : TokenKind} {e : Expectation} {ts r : List Token}
    (h : Takes (·.kind == kind) ts r) : ∃ x, Names (expectKind kind e ts) x r := by
  obtain ⟨t, rfl, ht⟩ := h
  exact ⟨t.lexeme, t, gives_expectKind.mpr ⟨rfl, beq_iff_eq.mp ht⟩, rfl⟩

/-- What the grammar derives from `ts` on is read, where nothing comes behind it to go on with. -/
structure ExpressionsRead (ts : List Token) : Prop where
  expression {r : List Token} (h : Passes rules (category .expression) ts r)
    (hr : Clear expressionSigns r) : Leaves (expression ts) r
  operations {r : List Token} (h : Passes rules (many operation) ts r)
    (hr : Clear operationSigns r) : LeavesAny (operations ts) r
  operand {r : List Token} (h : Passes rules (category .unary) ts r)
    (hr : Clear operandSigns r) : Leaves (operand ts) r
  accesses {r : List Token} (h : Passes rules (many access) ts r)
    (hr : Clear accessSigns r) : LeavesAny (accesses ts) r
  primary {r : List Token} (h : Passes rules (category .primary) ts r)
    (hr : Clear memberSigns r) : Leaves (primary ts) r
  values {close : String} {r : List Token} (h : Passes rules (category .values) ts r)
    (hclose : close = ")" ∨ close = "]") (hr : startsWith close r = true) :
    ∃ first, GivesValues (values close ts) first r

/-! One case for each reader, where whatever is shorter than `ts` is read. -/

section Shorter

variable {ts r : List Token} (ih : ∀ m : List Token, m.length < ts.length → ExpressionsRead m)

include ih

private theorem read_accesses (h : Passes rules (many access) ts r)
    (hr : Clear accessSigns r) : LeavesAny (accesses ts) r := by
  rw [accesses_iff]
  obtain rfl | ⟨k, hk, hmore⟩ := passes_many.mp h
  · exact .inr (.inr (.inr ⟨hr.not_startsWith (by decide), hr.not_startsWith (by decide),
      hr.not_startsWith (by decide), rfl⟩))
  obtain ⟨m, hm, hk⟩ | ⟨m, hm, l, hl, hk⟩ | ⟨m, hm, l, hl, hk⟩ := passes_access.mp hk
  · have h1 := hm.length_lt
    have h2 := hk.length_lt
    exact .inl ⟨m, hm, k, names_of_takes hk, (ih k (by omega)).accesses hmore hr⟩
  · have h1 := hm.length_lt
    have h2 := hl.length_le
    have h3 := hk.length_lt
    exact .inr (.inl ⟨m, hm, l, (ih m h1).values hl (.inl rfl) (startsWith_of_takes hk), k,
      leaves_expectSign.mpr hk, (ih k (by omega)).accesses hmore hr⟩)
  · have h1 := hm.length_lt
    have h2 := hl.length_le
    have h3 := hk.length_lt
    have hl := (ih m h1).expression hl (clear_of_startsWith (startsWith_of_takes hk) (by decide))
    exact .inr (.inr (.inl ⟨m, hm, l, hl, k, leaves_expectSign.mpr hk,
      (ih k (by omega)).accesses hmore hr⟩))

private theorem read_primary (h : Passes rules (category .primary) ts r)
    (hr : Clear memberSigns r) : Leaves (primary ts) r := by
  rw [primary_iff]
  obtain ⟨t, rfl, ht⟩ | ⟨t, rfl, ht⟩ | ⟨t, rfl, ht⟩ | ⟨m, hm, hmember⟩ | ⟨m, hm, k, hk, hclose⟩ |
    ⟨m, hm, k, hk, hclose⟩ := passes_primary.mp h
  · exact .inl ⟨t, rfl, by simp [ht]⟩
  · exact .inl ⟨t, rfl, by simp [ht]⟩
  · exact .inl ⟨t, rfl, by simp [ht]⟩
  · refine .inr (.inl ⟨m, hm, ?_⟩)
    obtain ⟨k, hk, hname⟩ | rfl := hmember
    · exact .inr ⟨k, hk, names_of_takes hname⟩
    · exact .inl ⟨hr.not_startsWith (by decide), rfl⟩
  · have hk := (ih m hm.length_lt).expression hk
      (clear_of_startsWith (startsWith_of_takes hclose) (by decide))
    exact .inr (.inr (.inl ⟨m, hm, k, hk, leaves_expectSign.mpr hclose⟩))
  · have hk := (ih m hm.length_lt).values hk (.inr rfl) (startsWith_of_takes hclose)
    exact .inr (.inr (.inr ⟨m, hm, k, hk, leaves_expectSign.mpr hclose⟩))

private theorem read_operand (h : Passes rules (category .unary) ts r)
    (hr : Clear operandSigns r) : Leaves (operand ts) r := by
  rw [operand_iff]
  obtain ⟨m, hm, k, hk, hmore⟩ := passes_unary.mp h
  obtain ⟨u, rfl, hu⟩ := passes_many_lexeme.mp hm
  replace hu : ∀ t ∈ u, isUnaryOperator t = true := hu
  have hkclear : Clear memberSigns k := by
    obtain rfl | hp := starts_access.of_many hmore
    · exact hr.subset (by decide)
    · exact clear_of_any hp (by decide)
  have hmread : Leaves (primary m) k := by
    cases u with
    | nil => exact read_primary ih hk hkclear
    | cons t u => exact (ih m (by rw [List.length_append, List.length_cons]; omega)).primary hk hkclear
  have hstop : m.dropWhile isUnaryOperator = m := by
    have hfirst := starts_primary hk
    cases m with
    | nil => rfl
    | cons t m =>
      have ht := not_isUnaryOperator_of_beginsPrimary (by simpa using hfirst)
      exact List.dropWhile_cons_of_neg (by simp [ht])
  have h1 := hmread.length_lt
  refine ⟨m, ?_, k, hmread, (ih k ?_).accesses hmore (hr.subset (by decide))⟩
  · rw [List.dropWhile_append_of_pos hu, hstop]
  · rw [List.length_append]
    omega

private theorem read_operations (h : Passes rules (many operation) ts r)
    (hr : Clear operationSigns r) : LeavesAny (operations ts) r := by
  rw [operations_iff]
  obtain rfl | ⟨k, hk, hmore⟩ := passes_many.mp h
  · exact .inl ⟨hr.subset (by decide), rfl⟩
  obtain ⟨m, hm, hk⟩ := passes_operation.mp hk
  have hkclear : Clear operandSigns k := by
    obtain rfl | hp := starts_operation.of_many hmore
    · exact hr.subset (by decide)
    · exact clear_of_any hp (by decide)
  have h1 := hm.length_lt
  have hk := (ih m h1).operand hk hkclear
  have h2 := hk.length_lt
  exact .inr ⟨m, hm, k, hk, (ih k (by omega)).operations hmore hr⟩

private theorem read_expression (h : Passes rules (category .expression) ts r)
    (hr : Clear expressionSigns r) : Leaves (expression ts) r := by
  rw [expression_iff]
  obtain ⟨m, hm, k, hk, hchoice⟩ := passes_expression.mp h
  have hkclear : Clear operationSigns k := by
    obtain ⟨a, ha, -⟩ | rfl := hchoice
    · exact clear_of_startsWith (startsWith_of_takes ha) (by decide)
    · exact hr.subset (by decide)
  have hmclear : Clear operandSigns m := by
    obtain rfl | hp := starts_operation.of_many hk
    · exact hkclear.subset (by decide)
    · exact clear_of_any hp (by decide)
  have hm := read_operand ih hm hmclear
  have h1 := hm.length_lt
  have hk := (ih m h1).operations hk hkclear
  refine ⟨m, hm, k, hk, ?_⟩
  obtain ⟨a, ha, b, hb, c, hc, hlast⟩ | rfl := hchoice
  · have h2 := hk.length_le
    have h3 := ha.length_lt
    have hb := (ih a (by omega)).expression hb
      (clear_of_startsWith (startsWith_of_takes hc) (by decide))
    have h4 := hb.length_lt
    have h5 := hc.length_lt
    exact .inr ⟨a, ha, b, hb, c, leaves_expectSign.mpr hc, (ih c (by omega)).expression hlast hr⟩
  · exact .inl ⟨hr.not_startsWith (by decide), rfl⟩

/-- A name and `=` are read as the start of a named value; read as an expression, the name would be all of
it and `=` would come behind. -/
private theorem not_isNamed (h : Leaves (Script.expression ts) r) (hr : startsWith "=" r = false) :
    isNamed ts = false := by
  rw [Bool.eq_false_iff]
  intro hnamed
  obtain ⟨t, e, k, rfl, ht, he⟩ := isNamed_iff.mp hnamed
  have hek : startsWith "=" (e :: k) = true := by simpa [startsWith] using he
  have hname : Passes rules (category .expression) (t :: e :: k) (e :: k) := by
    refine passes_expression.mpr ⟨e :: k, passes_unary.mpr ⟨_, passes_many.mpr (.inl rfl), _,
      passes_primary.mpr ?_, passes_many.mpr (.inl rfl)⟩, _, passes_many.mpr (.inl rfl), .inr rfl⟩
    exact .inr (.inr (.inr (.inl ⟨_, ⟨t, rfl, ht⟩, .inr rfl⟩)))
  have heq := h.unique (read_expression ih hname (clear_of_startsWith hek (by decide)))
  rw [heq, hek] at hr
  cases hr

private theorem read_values {close : String} (h : Passes rules (category .values) ts r)
    (hclose : close = ")" ∨ close = "]") (hr : startsWith close r = true) :
    ∃ first, GivesValues (values close ts) first r := by
  obtain rfl | ⟨k, hk, hmore⟩ := passes_values.mp h
  · exact ⟨none, values_iff.mpr (.inl ⟨hr, rfl, rfl⟩)⟩
  have hkclear (xs : List String) (hcomma : "," ∉ xs) (hxs : close ∉ xs) : Clear xs k := by
    obtain rfl | ⟨m, hm, -⟩ := hmore
    · exact clear_of_startsWith hr hxs
    · exact clear_of_startsWith (startsWith_of_takes hm) hcomma
  have hkexpression : Clear expressionSigns k :=
    hkclear _ (by decide) (by obtain rfl | rfl := hclose <;> decide)
  have hkassign : startsWith "=" k = false :=
    (hkclear ["="] (by decide) (by obtain rfl | rfl := hclose <;> decide)).not_startsWith (by decide)
  have hitem : Item ts k := by
    obtain ⟨m, hm, l, hl, hk⟩ | hk := passes_value.mp hk
    · have h1 := hm.length_lt
      have h2 := hl.length_lt
      exact .inl ⟨m, hm, l, hl, (ih l (by omega)).expression hk hkexpression⟩
    · have hk := read_expression ih hk hkexpression
      exact .inr ⟨not_isNamed ih hk hkassign, hk⟩
  have hopen := not_startsWith_of_beginsExpression (starts_value hk) hclose
  have h1 := hitem.length_lt
  refine ⟨_, values_iff.mpr (.inr ⟨hopen, k, ⟨hitem, rfl⟩, ?_⟩)⟩
  obtain rfl | ⟨m, hm, hmore⟩ := hmore
  · have hnot : close ∉ [","] := by obtain rfl | rfl := hclose <;> decide
    exact .inl ⟨(clear_of_startsWith hr hnot).not_startsWith (by decide), rfl⟩
  · have h2 := hm.length_lt
    exact .inr ⟨m, hm, (ih m (by omega)).values hmore hclose hr⟩

end Shorter

theorem expressionsRead (ts : List Token) : ExpressionsRead ts := by
  induction hn : ts.length using Nat.strongRecOn generalizing ts with
  | ind n ih =>
    subst hn
    replace ih (m : List Token) (hm : m.length < ts.length) : ExpressionsRead m := ih _ hm m rfl
    exact { expression := read_expression ih, operations := read_operations ih, operand := read_operand ih,
            accesses := read_accesses ih, primary := read_primary ih, values := read_values ih }

theorem read_defaultValue {ts r : List Token} (h : Passes rules assigned ts r ∨ ts = r)
    (hr : Clear ("=" :: expressionSigns) r) : LeavesAny (defaultValue ts) r := by
  rw [defaultValue_iff]
  obtain h | rfl := h
  · obtain ⟨m, hm, hr'⟩ := passes_assigned.mp h
    exact .inr ⟨m, hm, (expressionsRead m).expression hr' (hr.subset (by decide))⟩
  · exact .inl ⟨hr.not_startsWith (by decide), rfl⟩

/-- A sign is no name. -/
theorem not_ident_of_startsWith {x : String} {ts : List Token} (h : startsWith x ts = true) :
    ts.head?.any (·.kind == .ident) = false := by
  cases ts with
  | nil => rfl
  | cons t ts =>
    simp only [startsWith, List.head?_cons, Option.any_some, Token.isPunct, Bool.and_eq_true,
      beq_iff_eq] at h
    simp [h.1]

theorem not_startsWith_of_ident {x : String} {ts r : List Token} (h : Takes (·.kind == .ident) ts r) :
    startsWith x ts = false := by
  obtain ⟨t, rfl, ht⟩ := h
  rw [Bool.eq_false_iff]
  intro hx
  have := not_ident_of_startsWith hx
  simp [beq_iff_eq.mp ht] at this

theorem read_params {ts r : List Token} (h : Passes rules (category .params) ts r)
    (hr : startsWith ")" r = true) : LeavesAny (params ts) r := by
  induction hn : ts.length using Nat.strongRecOn generalizing ts with
  | ind n ih =>
    subst hn
    rw [params_iff]
    obtain rfl | ⟨l, hl, hmore⟩ := passes_params.mp h
    · exact .inl ⟨hr, rfl⟩
    obtain ⟨m, hm, k, hk, hdefault⟩ := passes_param.mp hl
    obtain ⟨x, hx, hsign⟩ : ∃ x ∈ [")", ","], startsWith x l = true := by
      obtain rfl | ⟨q, hq, -⟩ := hmore
      · exact ⟨_, by decide, hr⟩
      · exact ⟨_, by decide, startsWith_of_takes hq⟩
    have hlclear : Clear ("=" :: expressionSigns) l := by
      simp only [List.mem_cons, List.not_mem_nil, or_false] at hx
      obtain rfl | rfl := hx <;> exact clear_of_startsWith hsign (by decide)
    have hname : MaybeName m k := by
      obtain hk | rfl := hk
      · exact .inr hk
      · refine .inl ⟨?_, rfl⟩
        obtain h | rfl := hdefault
        · obtain ⟨_, hassign, -⟩ := passes_assigned.mp h
          exact not_ident_of_startsWith (startsWith_of_takes hassign)
        · exact not_ident_of_startsWith hsign
    have hdefault := read_defaultValue hdefault hlclear
    refine .inr ⟨not_startsWith_of_ident hm, m, names_of_takes hm, k, hname, l, hdefault, ?_⟩
    obtain rfl | ⟨q, hq, hmore⟩ := hmore
    · exact .inl ⟨(clear_of_startsWith hr (by decide) : Clear [","] l).not_startsWith (by decide), rfl⟩
    · have h1 := hm.length_lt
      have h2 : k.length ≤ m.length := by
        obtain hk | rfl := hk
        · exact Nat.le_of_lt hk.length_lt
        · exact Nat.le_refl _
      have h3 := hdefault.length_le
      have h4 := hq.length_lt
      exact .inr ⟨q, hq, ih q.length (by omega) hmore rfl⟩

/-! The readers of statements. -/

theorem read_arguments {ts r : List Token} (h : Passes rules (bracketed (category .values)) ts r) :
    ∃ args first, Arguments args first ts r := by
  obtain ⟨m, hm, k, hk, hclose⟩ := passes_bracketed.mp h
  obtain ⟨first, hk⟩ := (expressionsRead m).values hk (.inl rfl) (startsWith_of_takes hclose)
  exact ⟨_, first, m, leaves_expectSign.mpr hm, k, ⟨hk, rfl⟩, leaves_expectSign.mpr hclose⟩

theorem read_condition {ts r : List Token}
    (h : Passes rules (bracketed (category .expression)) ts r) : Leaves (condition ts) r := by
  obtain ⟨m, hm, k, hk, hclose⟩ := passes_bracketed.mp h
  exact (condition_iff ts r).mpr ⟨m, leaves_expectSign.mpr hm, k, (expressionsRead m).expression hk
    (clear_of_startsWith (startsWith_of_takes hclose) (by decide)), leaves_expectSign.mpr hclose⟩

theorem read_optionalExpression {ts r : List Token} (h : Passes rules (category .expression) ts r ∨ ts = r)
    (hr : startsWith ")" r = true) : LeavesAny (optionalExpression ts) r := by
  rw [optionalExpression_iff]
  obtain h | rfl := h
  · exact .inr ⟨not_startsWith_of_beginsExpression (starts_expression h) (.inl rfl),
      (expressionsRead ts).expression h (clear_of_startsWith hr (by decide))⟩
  · exact .inl ⟨hr, rfl⟩

/-- Whether a statement other than `;` may start with a token. -/
def beginsConstruct (t : Token) : Bool :=
  t.kind == .macroName || (t.kind == .ident && t.lexeme != "else") || t.isPunct "!"

private theorem beginsConstruct_of_word {x : String} (hx : x ≠ "else") :
    Starts rules beginsConstruct (word x) := by
  refine .lexeme fun t ht => ?_
  have ht : t.kind = .ident ∧ t.lexeme = x := by simpa [Token.content, Prod.ext_iff] using ht
  simp [beginsConstruct, ht.1, ht.2, hx]

private theorem beginsConstruct_of_plainName : Starts rules beginsConstruct plainName := by
  refine .lexeme fun t ht => ?_
  simp only [Token.content, keywords, Bool.and_eq_true, beq_iff_eq, Bool.not_eq_true',
    List.contains_eq_mem, decide_eq_false_iff_not, List.mem_cons, not_or] at ht
  simp [beginsConstruct, ht]

theorem starts_leafRow (kind : NodeKind) : Starts rules beginsConstruct (row (leafRow kind)) := by
  cases kind with
  | directive =>
    refine .row (.lexeme fun t ht => ?_)
    have ht : t.kind = .punct ∧ t.lexeme = "!" := by simpa [Token.content, Prod.ext_iff] using ht
    simp [beginsConstruct, Token.isPunct, ht.1, ht.2]
  | macroCall =>
    refine .row (.lexeme fun t ht => ?_)
    have ht : t.kind = .macroName := by simpa [Token.content] using ht
    simp [beginsConstruct, ht]
  | importDecl | exportDecl | externDecl | useDecl => exact .row (beginsConstruct_of_word (by decide))
  | variableDecl | methodReference | funCall => exact .row beginsConstruct_of_plainName
  | root | sub | funBlock | conditional | elseIf | otherwise | element => exact .row (.oneOf (by simp))

theorem starts_openingRow {kind : NodeKind} (hkind : kind ≠ .elseIf ∧ kind ≠ .otherwise) :
    Starts rules beginsConstruct (row (openingRow kind)) := by
  cases kind with
  | sub | conditional => exact .row (beginsConstruct_of_word (by decide))
  | funBlock => exact .row beginsConstruct_of_plainName
  | elseIf => exact absurd rfl hkind.1
  | otherwise => exact absurd rfl hkind.2
  | root | importDecl | exportDecl | variableDecl | externDecl | macroCall | directive | useDecl
  | funCall | methodReference | element => exact .row (.oneOf (by simp))

theorem starts_of_passes_statement {ts r : List Token} (h : Passes rules (category .statement) ts r) :
    Takes (·.isPunct ";") ts r ∨ ts.head?.any beginsConstruct = true := by
  obtain h | ⟨kind, m, h, -⟩ | ⟨kind, hkind, h⟩ | h := passes_statement.mp h
  · exact .inl h
  · exact .inr (starts_leafRow kind h)
  · obtain ⟨m, h, -⟩ := passes_blockRow.mp h
    exact .inr (starts_openingRow (by obtain rfl | rfl := hkind <;> decide) h)
  · obtain ⟨m, h, -⟩ := passes_row_append.mp h
    obtain ⟨m, h, -⟩ := passes_blockRow.mp h
    exact .inr (starts_openingRow (by decide) h)

/-- What may follow a statement: the next one, a closing brace, or nothing more. No sign stands there
that a statement could go on with, and no `else`. -/
def Followed (ts : List Token) : Prop :=
  ts = [] ∨ startsWith "\x7d" ts = true ∨ startsWith ";" ts = true ∨
    ts.head?.any beginsConstruct = true

theorem followed_of_passes {ts r : List Token} (h : Passes rules (category .statement) ts r) :
    Followed ts := by
  obtain h | h := starts_of_passes_statement h
  · exact .inr (.inr (.inl (startsWith_of_takes h)))
  · exact .inr (.inr (.inr h))

theorem Followed.clear {ts : List Token} {xs : List String} (h : Followed ts)
    (hxs : ∀ x ∈ ["\x7d", ";", "!"], x ∉ xs) : Clear xs ts := by
  obtain rfl | h | h | h := h
  · rfl
  · exact clear_of_startsWith h (hxs _ (by decide))
  · exact clear_of_startsWith h (hxs _ (by decide))
  · cases ts with
    | nil => rfl
    | cons t ts =>
      rw [List.head?_cons, Option.any_some] at h
      rw [Clear, List.head?_cons, Option.any_some, Bool.eq_false_iff]
      intro hsign
      simp only [isOneOf, Bool.and_eq_true, beq_iff_eq, List.contains_eq_mem,
        decide_eq_true_eq] at hsign
      have hl : t.lexeme = "!" := by simpa [beginsConstruct, Token.isPunct, hsign.1] using h
      exact hxs "!" (by decide) (hl ▸ hsign.2)

theorem Followed.not_else {ts : List Token} (h : Followed ts) :
    ts.head?.any (·.isWord "else") = false := by
  cases ts with
  | nil => rfl
  | cons t ts =>
    rw [List.head?_cons, Option.any_some, Bool.eq_false_iff]
    intro helse
    simp only [Token.isWord, Bool.and_eq_true, beq_iff_eq] at helse
    obtain h | h | h | h := h
    · cases h
    all_goals simp [startsWith, Token.isPunct, beginsConstruct, helse.1, helse.2] at h

/-- A statement that starts with `;` is that. -/
theorem eq_of_semicolon {ts r q : List Token} (h : Passes rules (category .statement) ts r)
    (hq : Takes (·.isPunct ";") ts q) : r = q := by
  obtain h | h := starts_of_passes_statement h
  · exact h.unique hq
  · obtain ⟨t, rfl, ht⟩ := hq
    simp only [Token.isPunct, Bool.and_eq_true, beq_iff_eq] at ht
    simp [beginsConstruct, Token.isPunct, ht.1, ht.2] at h

private theorem takes_keyword {k : Keyword} {ts r : List Token} (h : Passes rules (word k.text) ts r) :
    Takes (isKeyword (some k)) ts r := by
  rw [isKeyword_some]
  exact passes_word.mp h

private theorem takes_name {ts r : List Token} (h : Passes rules plainName ts r) :
    ∃ x, Takes (fun t => isKeyword none t && t.lexeme == x) ts r := by
  obtain ⟨t, rfl, ht⟩ := passes_plainName.mp h
  exact ⟨t.lexeme, t, rfl, by simp [ht]⟩

theorem read_leafBody {kind : NodeKind} {ts r : List Token} (h : Passes rules (row (leafRow kind)) ts r)
    (hr : Followed r) : ∃ tag first, LeafBody kind tag first ts r := by
  cases kind with
  | importDecl =>
    simp only [leafRow, passes_row_cons, passes_row_nil, passes_any, exists_eq_right] at h
    obtain ⟨m, hm, hr⟩ := h
    obtain ⟨x, hx⟩ := names_of_takes hr
    exact ⟨_, _, rfl, m, takes_keyword hm, x, rfl, hx⟩
  | exportDecl =>
    simp only [leafRow, passes_row_cons, passes_row_nil, passes_ident, passes_assigned,
      exists_eq_right] at h
    obtain ⟨m, hm, k, hk, l, hl, o, ho, hlast⟩ := h
    obtain ⟨y, hy⟩ := names_of_takes hl
    exact ⟨_, _, rfl, m, takes_keyword hm, k, names_of_takes hk, l, ⟨y, rfl, hy⟩, o,
      leaves_expectSign.mpr ho, (expressionsRead o).expression hlast (hr.clear (by decide))⟩
  | externDecl =>
    simp only [leafRow, passes_row_cons, passes_row_nil, passes_ident, exists_eq_right] at h
    obtain ⟨m, hm, k, hk, hlast⟩ := h
    obtain ⟨x, hx⟩ := names_of_takes hk
    obtain ⟨y, hy⟩ := names_of_takes hlast
    exact ⟨_, _, rfl, m, takes_keyword hm, x, k, hx, y, rfl, hy⟩
  | useDecl =>
    simp only [leafRow, passes_row_cons, passes_row_nil, passes_ident, exists_eq_right] at h
    obtain ⟨m, hm, k, hk, hlast⟩ := h
    obtain ⟨x, hx⟩ := names_of_takes hk
    obtain ⟨args, f, hargs⟩ := read_arguments hlast
    exact ⟨_, _, rfl, m, takes_keyword hm, x, k, hx, args, rfl, f, hargs⟩
  | directive =>
    simp only [leafRow, passes_row_cons, passes_row_nil, passes_ident, passes_sign,
      exists_eq_right] at h
    obtain ⟨m, hm, k, hk, hlast⟩ := h
    obtain ⟨x, hx⟩ := names_of_takes hk
    obtain ⟨args, f, hargs⟩ := read_arguments hlast
    exact ⟨_, _, rfl, m, hm, x, k, hx, args, rfl, f, hargs⟩
  | macroCall =>
    simp only [leafRow, passes_row_cons, passes_row_nil, passes_bracketed, passes_maybe, passes_any,
      exists_eq_right] at h
    obtain ⟨m, ⟨t, rfl, ht⟩, k, hk, l, hl, hlast⟩ := h
    exact ⟨_, _, rfl, t.lexeme, rfl, m, ⟨t, rfl, by simp [ht]⟩, k, leaves_expectSign.mpr hk, l,
      read_optionalExpression hl (startsWith_of_takes hlast), leaves_expectSign.mpr hlast⟩
  | variableDecl =>
    simp only [leafRow, passes_row_cons, passes_row_nil, passes_ident, passes_maybe,
      exists_eq_right] at h
    obtain ⟨m, hm, k, hk, hlast⟩ := h
    obtain ⟨x, hx⟩ := takes_name hm
    obtain ⟨y, hy⟩ := names_of_takes hk
    exact ⟨_, _, rfl, x, m, hx, y, k, ⟨rfl, hy⟩, read_defaultValue hlast (hr.clear (by decide))⟩
  | methodReference =>
    simp only [leafRow, passes_row_cons, passes_row_nil, passes_ident, passes_sign,
      exists_eq_right] at h
    obtain ⟨m, hm, k, hk, l, hl, hlast⟩ := h
    obtain ⟨x, hx⟩ := takes_name hm
    obtain ⟨y, hy⟩ := names_of_takes hl
    exact ⟨_, _, rfl, x, m, hx, k, leaves_expectSign.mpr hk, y, l, ⟨rfl, hy⟩, read_arguments hlast⟩
  | funCall =>
    simp only [leafRow, passes_row_cons, passes_row_nil, exists_eq_right] at h
    obtain ⟨m, hm, hlast⟩ := h
    obtain ⟨x, hx⟩ := takes_name hm
    obtain ⟨args, first, hargs⟩ := read_arguments hlast
    have hopen : Clear ["\x7b"] r := hr.clear (by decide)
    exact ⟨_, first, x, rfl, m, hx, args, hargs, hopen.not_startsWith (by decide)⟩
  | root | sub | funBlock | conditional | elseIf | otherwise | element =>
    simp [leafRow, passes_oneOf] at h

theorem read_opens {kind : NodeKind} {ts r : List Token} (h : Passes rules (row (openingRow kind)) ts r)
    (hr : startsWith "\x7b" r = true) : ∃ tag, Opens kind tag ts r := by
  cases kind with
  | sub =>
    simp only [openingRow, passes_row_cons, passes_row_nil, passes_ident, passes_bracketed,
      exists_eq_right] at h
    obtain ⟨m, hm, k, hk, l, hl, o, ho, hlast⟩ := h
    obtain ⟨x, hx⟩ := names_of_takes hk
    exact ⟨_, m, takes_keyword hm, x, k, ⟨rfl, hx⟩, l, leaves_expectSign.mpr hl, o,
      read_params ho (startsWith_of_takes hlast), leaves_expectSign.mpr hlast⟩
  | funBlock =>
    simp only [openingRow, passes_row_cons, passes_row_nil, exists_eq_right] at h
    obtain ⟨m, hm, hlast⟩ := h
    obtain ⟨x, hx⟩ := takes_name hm
    obtain ⟨args, first, hargs⟩ := read_arguments hlast
    exact ⟨_, x, m, hx, args, rfl, first, hargs⟩
  | conditional =>
    simp only [openingRow, passes_row_cons, passes_row_nil, exists_eq_right] at h
    obtain ⟨m, hm, hlast⟩ := h
    exact ⟨_, rfl, m, takes_keyword hm, read_condition hlast⟩
  | elseIf =>
    simp only [openingRow, passes_row_cons, passes_row_nil, passes_word, exists_eq_right] at h
    obtain ⟨m, hm, k, hk, hlast⟩ := h
    exact ⟨_, rfl, m, hm, k, hk, read_condition hlast⟩
  | otherwise =>
    simp only [openingRow, passes_row_cons, passes_row_nil, passes_word, passes_maybe,
      exists_eq_right] at h
    obtain ⟨m, hm, hlast⟩ := h
    have hsign : startsWith "(" m = true ∨ startsWith "\x7b" m = true := by
      obtain h | rfl := hlast
      · obtain ⟨_, hopen, -⟩ := passes_bracketed.mp h
        exact .inl (startsWith_of_takes hopen)
      · exact .inr hr
    have hword : m.head?.any (·.isWord "if") = false := by
      cases m with
      | nil => rfl
      | cons t m =>
        rw [List.head?_cons, Option.any_some, Bool.eq_false_iff]
        intro hif
        simp only [Token.isWord, Bool.and_eq_true, beq_iff_eq] at hif
        simp [startsWith, Token.isPunct, hif.1] at hsign
    refine ⟨_, rfl, m, hm, hword, (optionalArguments_iff m r).mpr ?_⟩
    obtain h | rfl := hlast
    · obtain ⟨_, hopen, -⟩ := passes_bracketed.mp h
      exact .inl ⟨startsWith_of_takes hopen, read_arguments h⟩
    · have hopen : Clear ["("] m := clear_of_startsWith hr (by decide)
      exact .inr ⟨hopen.not_startsWith (by decide), rfl⟩
  | root | importDecl | exportDecl | variableDecl | externDecl | macroCall | directive | useDecl
  | funCall | methodReference | element => simp [openingRow, passes_oneOf] at h

/-- What the grammar derives from `ts` on is read. Where a `;` comes behind that may end a leaf as well,
it is passed too. -/
structure StatementsRead (n : Nat) (ts : List Token) : Prop where
  statement {r : List Token} (h : Passes rules (category .statement) ts r) (hr : Followed r) :
    ∃ c q, Gives (statement n ts) c q ∧ (q = r ∨ Takes (·.isPunct ";") r q)
  blockRest {k r : List Token} (h : Passes rules (many (category .statement)) ts k)
    (hr : Takes (·.isPunct "\x7d") k r) : ∃ closing body, Gives (blockRest n ts) (closing, body) r
  clauses {r : List Token} (h : Passes rules (row [many elseIf, maybe otherwise]) ts r)
    (hr : r.head?.any (·.isWord "else") = false) : ∃ cs, GivesAny (clauses n ts) cs r

/-- Statements up to an end: one is read, and those behind it are derived from there on. -/
private theorem next_statement {n : Nat} {ts k : List Token}
    (hread : ∀ {r}, Passes rules (category .statement) ts r → Followed r →
      ∃ c q, Gives (statement n ts) c q ∧ (q = r ∨ Takes (·.isPunct ";") r q))
    (h : Passes rules (many (category .statement)) ts k)
    (hk : k = [] ∨ startsWith "\x7d" k = true) :
    ts = k ∨ startsWith "\x7d" ts = false ∧ ∃ c q, Gives (statement n ts) c q ∧
      Passes rules (many (category .statement)) q k := by
  obtain rfl | ⟨m, hm, hmore⟩ := passes_many.mp h
  · exact .inl rfl
  have hfollowed : Followed m := by
    obtain rfl | ⟨l, hl, -⟩ := passes_many.mp hmore
    · exact hk.imp_right .inl
    · exact followed_of_passes hl
  obtain ⟨c, q, hc, hq⟩ := hread hm hfollowed
  have hopen : startsWith "\x7d" ts = false := by
    have := not_endsStatements_of_statement hc
    cases ts with
    | nil => rfl
    | cons t ts => simp_all [endsStatements, startsWith]
  refine .inr ⟨hopen, c, q, hc, ?_⟩
  obtain rfl | hq := hq
  · exact hmore
  -- The `;` behind the leaf is derived as a statement of its own.
  obtain rfl | ⟨l, hl, hmore⟩ := passes_many.mp hmore
  · have hsemi := startsWith_of_takes hq
    obtain rfl | hk := hk
    · cases hsemi
    · have : Clear [";"] m := clear_of_startsWith hk (by decide)
      rw [this.not_startsWith (by decide)] at hsemi
      cases hsemi
  · rw [← eq_of_semicolon hl hq]
    exact hmore

/-! One case for each reader, where whatever is shorter than `ts` is read. -/

section Shorter

variable {n : Nat} {ts r : List Token} (ih : ∀ m : List Token, m.length < ts.length → StatementsRead n m)

include ih

private theorem read_body {kind : NodeKind} (h : Passes rules (row (blockRow kind)) ts r) :
    ∃ tag k braces body, Opens kind tag ts k ∧ Gives (block n k) (braces, body) r := by
  obtain ⟨k, hk, hr⟩ := passes_blockRow.mp h
  obtain ⟨m, hm, o, ho, hr⟩ := passes_block.mp hr
  obtain ⟨tag, hk⟩ := read_opens hk (startsWith_of_takes hm)
  have h1 := hk.length_le
  have h2 := hm.length_lt
  obtain ⟨closing, body, hbody⟩ := (ih m (by omega)).blockRest ho hr
  exact ⟨tag, k, _, body, hk, gives_block.mpr ⟨m, leaves_expectSign.mpr hm, closing, hbody, rfl⟩⟩

private theorem read_blockAt {kind : NodeKind} (h : Passes rules (row (blockRow kind)) ts r) :
    ∃ c, BlockAt n kind ts c r := by
  obtain ⟨tag, k, braces, body, hk, hr⟩ := read_body ih h
  exact ⟨_, tag, k, braces, body, hk, hr, rfl⟩

private theorem read_statement (h : Passes rules (category .statement) ts r) (hr : Followed r) :
    ∃ c q, Gives (statement n ts) c q ∧ (q = r ∨ Takes (·.isPunct ";") r q) := by
  obtain h | ⟨kind, m, hm, hend⟩ | ⟨kind, hkind, h⟩ | h := passes_statement.mp h
  · exact ⟨none, r, gives_statement.mpr (.inl ⟨rfl, h⟩), .inl rfl⟩
  · have hmfollowed : Followed m := by
      obtain h | rfl := hend
      · exact .inr (.inr (.inl (startsWith_of_takes h)))
      · exact hr
    obtain ⟨tag, first, hm⟩ := read_leafBody hm hmfollowed
    refine ⟨_, _, LeafAt.gives ⟨tag, first, m, hm, rfl, rfl⟩, ?_⟩
    obtain ⟨hnot, hskip⟩ | hskip := skip_cases ";" m
    · obtain h | rfl := hend
      · rw [startsWith_of_takes h] at hnot
        cases hnot
      · exact .inl hskip
    · obtain h | rfl := hend
      · exact .inl (hskip.unique h)
      · exact .inr hskip
  · obtain ⟨c, hc⟩ := read_blockAt ih h
    exact ⟨some c, r, hc.gives hkind, .inl rfl⟩
  · obtain ⟨m, hm, hclauses⟩ := passes_row_append.mp h
    obtain ⟨tag, k, braces, body, hk, hm⟩ := read_body ih hm
    obtain rfl : tag = "if" := hk.1
    have h1 := hk.length_le
    have h2 := hm.length_lt
    obtain ⟨cs, hcs⟩ := (ih m (by omega)).clauses hclauses hr.not_else
    exact ⟨_, r, ConditionalAt.gives ⟨k, braces, body, m, cs, hk, hm, hcs, rfl⟩, .inl rfl⟩

private theorem read_blockRest {k : List Token} (h : Passes rules (many (category .statement)) ts k)
    (hr : Takes (·.isPunct "\x7d") k r) : ∃ closing body, Gives (blockRest n ts) (closing, body) r := by
  obtain rfl | ⟨hopen, c, q, hc, hmore⟩ := next_statement (read_statement ih) h
      (.inr (startsWith_of_takes hr))
  · exact ⟨_, _, gives_blockRest.mpr (.inl ⟨hr, rfl, rfl⟩)⟩
  · obtain ⟨closing, body, hbody⟩ := (ih q hc.length_lt).blockRest hmore hr
    exact ⟨closing, _, gives_blockRest.mpr (.inr ⟨hopen, c, q, body, hc, hbody, rfl⟩)⟩

private theorem read_clauses (h : Passes rules (row [many elseIf, maybe otherwise]) ts r)
    (hr : r.head?.any (·.isWord "else") = false) : ∃ cs, GivesAny (clauses n ts) cs r := by
  obtain ⟨m, hm, hmore⟩ | h | rfl := passes_clauses.mp h
  · obtain ⟨c, hc⟩ := read_blockAt ih hm
    obtain ⟨cs, hcs⟩ := (ih m hc.length_lt).clauses hmore hr
    exact ⟨_, gives_clauses.mpr (.inr (.inl ⟨c, m, cs, hc, hcs, rfl⟩))⟩
  · obtain ⟨c, hc⟩ := read_blockAt ih h
    exact ⟨_, gives_clauses.mpr (.inr (.inr ⟨c, hc, rfl⟩))⟩
  · exact ⟨_, gives_clauses.mpr (.inl ⟨hr, rfl, rfl⟩)⟩

end Shorter

theorem statementsRead (n : Nat) (ts : List Token) : StatementsRead n ts := by
  induction hn : ts.length using Nat.strongRecOn generalizing ts with
  | ind l ih =>
    subst hn
    replace ih (m : List Token) (hm : m.length < ts.length) : StatementsRead n m := ih _ hm m rfl
    exact { statement := read_statement ih, blockRest := read_blockRest ih, clauses := read_clauses ih }

theorem read_statements {n : Nat} {ts : List Token} (h : Passes rules (category .script) ts []) :
    ∃ cs, statements n ts = .ok cs := by
  rw [passes_category, rules] at h
  induction hn : ts.length using Nat.strongRecOn generalizing ts with
  | ind l ih =>
    subst hn
    obtain rfl | ⟨-, c, q, hc, hmore⟩ := next_statement (statementsRead n ts).statement h (.inl rfl)
    · exact ⟨[], statements_iff.mpr (.inl ⟨rfl, rfl⟩)⟩
    · obtain ⟨cs, hcs⟩ := ih q.length hc.length_lt hmore rfl
      exact ⟨_, statements_iff.mpr (.inr ⟨c, q, cs, hc, hcs, rfl⟩)⟩

/-- A text is accepted exactly when its lexemes are derived as a script. -/
theorem parses_iff_derives {text : List Char} {s : Source} (hs : source text = .ok s) :
    (∃ t, parse text = .ok t) ↔ Derives rules (category .script) s.lexemes := by
  rw [Source.lexemes, ← passes_nil_iff]
  constructor
  · rintro ⟨t, ht⟩
    obtain ⟨s', hs', ht⟩ := bind_eq_ok.mp ht
    obtain ⟨cs, hcs, -⟩ := bind_eq_ok.mp ht
    rw [hs] at hs'
    cases hs'
    exact derived_statements hcs
  · intro h
    obtain ⟨cs, hcs⟩ := read_statements (n := s.tokens.length) h
    exact ⟨_, bind_eq_ok.mpr ⟨s, hs, bind_eq_ok.mpr ⟨cs, hcs, rfl⟩⟩⟩

set_option maxRecDepth 100000 in
/-- An array of values, one of them named. -/
theorem derives_array : ∃ s, source "export int A = [1, b = f(2),];".toList = .ok s ∧
    Derives rules (category .script) s.lexemes := by
  have hparse : (parse "export int A = [1, b = f(2),];".toList).toOption.isSome := by decide +kernel
  obtain ⟨t, ht⟩ := Option.isSome_iff_exists.mp hparse
  have ht := ok_of_toOption ht
  obtain ⟨s, hs, -⟩ := bind_eq_ok.mp ht
  exact ⟨s, hs, (parses_iff_derives hs).mp ⟨t, ht⟩⟩

/-- The grammar without arrays. -/
def rulesWithoutArrays : Category → Pattern Category
  | .primary => oneOf [any .number, any .str, any .macroName,
      row [ident, maybe (row [sign "::", ident])], bracketed (category .expression)]
  | c => rules c

private theorem starts_withoutArrays :
    Starts rulesWithoutArrays (fun t => !t.isPunct "[") (category .expression) := by
  have hother {x : Lexeme} {t : Token} (ht : t.content = x) (hx : x ≠ (.punct, "[")) :
      (!t.isPunct "[") = true := by
    rw [Bool.not_eq_true', Bool.eq_false_iff]
    exact fun h => hx (ht ▸ content_of_isPunct h)
  have hsign (x : String) (hx : x ≠ "[") :
      Starts rulesWithoutArrays (fun t => !t.isPunct "[") (sign x) :=
    .lexeme fun t ht => hother (beq_iff_eq.mp ht) (by simpa using hx)
  have hany (kind : TokenKind) (hkind : kind ≠ .punct) :
      Starts rulesWithoutArrays (fun t => !t.isPunct "[") (any kind) :=
    .lexeme fun t ht => hother rfl fun h => hkind ((beq_iff_eq.mp ht).symm.trans (congrArg Prod.fst h))
  refine .category (.row (.category (.row_many (.lexeme fun t ht => ?_)
    (.row (.category (.oneOf fun a ha => ?_))))))
  · refine hother rfl fun h => ?_
    rw [h] at ht
    exact absurd ht (by decide)
  · simp only [List.mem_cons, List.not_mem_nil, or_false] at ha
    obtain rfl | rfl | rfl | rfl | rfl := ha
    · exact hany _ (by decide)
    · exact hany _ (by decide)
    · exact hany _ (by decide)
    · exact .row (hany _ (by decide))
    · exact .row (hsign _ (by decide))

set_option maxRecDepth 100000 in
/-- An array is accepted as the argument of a macro. Without the rule for arrays, nothing derives it. -/
theorem array_parses_without_rule : ∃ t s, parse "$M([1]);".toList = .ok t ∧
    source "$M([1]);".toList = .ok s ∧ ¬ Derives rulesWithoutArrays (category .script) s.lexemes := by
  have hparse : (parse "$M([1]);".toList).toOption.isSome := by decide +kernel
  obtain ⟨t, ht⟩ := Option.isSome_iff_exists.mp hparse
  have ht := ok_of_toOption ht
  obtain ⟨s, hs, -⟩ := bind_eq_ok.mp ht
  have hlexemes : (source "$M([1]);".toList).toOption.map Source.lexemes =
      some [(.macroName, "$M"), (.punct, "("), (.punct, "["), (.number, "1"), (.punct, "]"),
        (.punct, ")"), (.punct, ";")] := by decide +kernel
  rw [hs] at hlexemes
  refine ⟨t, s, ht, hs, fun h => ?_⟩
  rw [Option.some.inj hlexemes, ← content_someTokens [_, _, _, _, _, _, _], ← passes_nil_iff,
    passes_category] at h
  obtain h | ⟨m, h, -⟩ := passes_many.mp h
  · cases h
  obtain ⟨a, ha, h⟩ := passes_oneOf.mp (passes_category.mp h)
  simp only [List.mem_cons, List.not_mem_nil, or_false] at ha
  obtain rfl | rfl | rfl | ha := ha
  · exact absurd (passes_lexeme.mp h).first (by decide)
  · obtain ⟨_, hfirst, -⟩ := passes_row_cons.mp h
    exact absurd (passes_lexeme.mp hfirst).first (by decide)
  · obtain ⟨_, ⟨_, hname, -⟩, h⟩ := by simpa only [passes_row_cons, passes_any] using h
    cases hname
    obtain ⟨_, ⟨_, ⟨_, hopen, -⟩, _, hargument, _, hclose, ht⟩, -⟩ := by
      simpa only [passes_row_cons, bracketed, passes_sign, passes_row_nil, exists_eq_right] using h
    cases hopen
    obtain hexpression | rfl := passes_maybe.mp hargument
    · exact absurd (starts_withoutArrays hexpression) (by decide)
    · cases hclose
      exact absurd ht (by decide)
  · obtain rfl | rfl | rfl | rfl | rfl | rfl | rfl | rfl | rfl := ha
    all_goals
      obtain ⟨_, hfirst, -⟩ := passes_row_cons.mp h
      exact absurd (passes_lexeme.mp hfirst).first (by decide)

end ModWeave.Script
