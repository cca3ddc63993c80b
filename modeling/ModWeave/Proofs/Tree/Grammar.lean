import ModWeave.Proofs.Tree.Expression
import ModWeave.Tree.Script

/-! The statements of a script, told by the tokens that they pass. A leaf is read up to its `;`, a block
up to its opening brace, and both depend on nothing but the lexemes passed and the one behind them. -/
namespace ModWeave.Script

deriving instance DecidableEq for Keyword

/-- Whether a token is a word of this kind; `none` stands for the words that open nothing. -/
def isKeyword (k : Option Keyword) (t : Token) : Bool :=
  t.kind == .ident && decide (keyword? t.lexeme = k)

/-- A bracketed list of values with its text and that of the first one. -/
def Arguments (args : String) (first : Option String) (ts r : List Token) : Prop :=
  ∃ m, Leaves (expect "(" ts) m ∧
    ∃ k, (GivesValues (values ")" m) first k ∧ joinedTo m k = args) ∧ Leaves (expect ")" k) r

/-- A leaf up to its end, where a `;` may stand. -/
def LeafBody : NodeKind → String → Option String → List Token → List Token → Prop
  | .importDecl, tag, first, ts, r => first = none ∧
    ∃ m, Takes (isKeyword (some .importDecl)) ts m ∧
      ∃ x, tag = s!"import:{unquoted ⟨.str, x, .origin⟩}" ∧ Names (expectKind .str .importPath m) x r
  | .exportDecl, tag, first, ts, r => first = none ∧
    ∃ m, Takes (isKeyword (some .exportDecl)) ts m ∧
      ∃ k, (∃ x, Names (expectKind .ident .exportType m) x k) ∧
        ∃ l, (∃ x, tag = s!"export:{x}" ∧ Names (expectKind .ident .exportName k) x l) ∧
          ∃ o, Leaves (expect "=" l) o ∧ Leaves (expression o) r
  | .externDecl, tag, first, ts, r => first = none ∧
    ∃ m, Takes (isKeyword (some .externDecl)) ts m ∧
      ∃ x k, Names (expectKind .ident .externType m) x k ∧
        ∃ y, tag = s!"extern:{x}:{y}" ∧ Names (expectKind .ident .externName k) y r
  | .useDecl, tag, first, ts, r => first = none ∧
    ∃ m, Takes (isKeyword (some .useDecl)) ts m ∧
      ∃ x k, Names (expectKind .ident .useName m) x k ∧
        ∃ args, tag = s!"use:{x}:{args}" ∧ ∃ f, Arguments args f k r
  | .directive, tag, first, ts, r => first = none ∧
    ∃ m, Takes (·.isPunct "!") ts m ∧
      ∃ x k, Names (expectKind .ident .directiveName m) x k ∧
        ∃ args, tag = tagWith s!"directive:{x}" args ∧ ∃ f, Arguments args f k r
  | .macroCall, tag, first, ts, r => first = none ∧
    ∃ x, tag = s!"macro:{x}" ∧ ∃ m, Takes (fun t => t.kind == .macroName && t.lexeme == x) ts m ∧
      ∃ k, Leaves (expect "(" m) k ∧ ∃ l, LeavesAny (optionalExpression k) l ∧ Leaves (expect ")" l) r
  | .variableDecl, tag, first, ts, r => first = none ∧
    ∃ x m, Takes (fun t => isKeyword none t && t.lexeme == x) ts m ∧
      ∃ y k, (tag = s!"variable:{x}:{y}" ∧ Names (expectKind .ident .variableName m) y k) ∧
        LeavesAny (defaultValue k) r
  | .methodReference, tag, first, ts, r => first = none ∧
    ∃ x m, Takes (fun t => isKeyword none t && t.lexeme == x) ts m ∧
      ∃ k, Leaves (expect "::" m) k ∧
        ∃ y l, (tag = s!"methodReference:{x}:{y}" ∧ Names (expectKind .ident .methodName k) y l) ∧
          ∃ args f, Arguments args f l r
  | .funCall, tag, first, ts, r =>
    ∃ x, tag = s!"funCall:{x}" ∧ ∃ m, Takes (fun t => isKeyword none t && t.lexeme == x) ts m ∧
      ∃ args, Arguments args first m r ∧ startsWith "\x7b" r = false
  | _, _, _, _, _ => False

theorem LeafBody.not_clause {kind : NodeKind} {tag : String} {first : Option String}
    {ts q : List Token} (h : LeafBody kind tag first ts q) : kind.isClause = false := by
  cases kind <;> first | rfl | exact h.elim

/-- A block up to its opening brace. -/
def Opens : NodeKind → String → List Token → List Token → Prop
  | .sub, tag, ts, r =>
    ∃ m, Takes (isKeyword (some .sub)) ts m ∧
      ∃ x k, (tag = s!"sub:{x}" ∧ Names (expectKind .ident .subName m) x k) ∧
        ∃ l, Leaves (expect "(" k) l ∧ ∃ o, LeavesAny (params l) o ∧ Leaves (expect ")" o) r
  | .funBlock, tag, ts, r =>
    ∃ x m, Takes (fun t => isKeyword none t && t.lexeme == x) ts m ∧
      ∃ args, tag = tagWith s!"funBlock:{x}" args ∧ ∃ f, Arguments args f m r
  | .conditional, tag, ts, r => tag = "if" ∧
    ∃ m, Takes (isKeyword (some .conditional)) ts m ∧ Leaves (condition m) r
  | .elseIf, tag, ts, r => tag = "elseif" ∧
    ∃ m, Takes (·.isWord "else") ts m ∧ ∃ k, Takes (·.isWord "if") m k ∧ Leaves (condition k) r
  | .otherwise, tag, ts, r => tag = "else" ∧
    ∃ m, Takes (·.isWord "else") ts m ∧
      m.head?.any (·.isWord "if") = false ∧ LeavesAny (optionalArguments m) r
  | _, _, _, _ => False

section Local

variable {ts : List Token}

private theorem local_arguments (args : String) (first : Option String) :
    Local (Arguments args first) ts := by
  refine .seq (Local.sign (by decide)) fun m _ => ?_
  exact .seq (.joined (· = args) ((expressionsLocal m).values ")" first)) fun _ _ =>
    Local.sign (by decide)

theorem optionalExpression_iff (ts r : List Token) : LeavesAny (optionalExpression ts) r ↔
    (startsWith ")" ts = true ∧ ts = r) ∨ (startsWith ")" ts = false ∧ Leaves (expression ts) r) := by
  rw [optionalExpression]
  cases hs : startsWith ")" ts with
  | true =>
    rw [if_pos rfl]
    constructor
    · rintro ⟨_, he, rfl⟩
      cases he
      exact .inl ⟨rfl, rfl⟩
    · rintro (⟨-, rfl⟩ | ⟨h, -⟩)
      · exact ⟨_, rfl, rfl⟩
      · cases h
  | false =>
    rw [if_neg (by decide)]
    constructor
    · rintro ⟨_, he, rfl⟩
      obtain ⟨b, h1, he⟩ := bind_eq_ok.mp he
      cases he
      exact .inr ⟨rfl, b, h1, rfl⟩
    · rintro (⟨h, -⟩ | ⟨-, b, h1, rfl⟩)
      · cases h
      · exact bind_succeeds h1 ⟨_, rfl, rfl⟩

theorem condition_iff (ts r : List Token) : Leaves (condition ts) r ↔
    ∃ m, Leaves (expect "(" ts) m ∧ ∃ k, Leaves (expression m) k ∧ Leaves (expect ")" k) r := by
  rw [condition]
  constructor
  · rintro ⟨_, he, rfl⟩
    obtain ⟨a, h1, he⟩ := bind_eq_ok.mp he
    obtain ⟨b, h2, he⟩ := bind_eq_ok.mp he
    obtain ⟨c, h3, he⟩ := bind_eq_ok.mp he
    cases he
    exact ⟨_, ⟨a, h1, rfl⟩, _, ⟨b, h2, rfl⟩, c, h3, rfl⟩
  · rintro ⟨_, ⟨a, h1, rfl⟩, _, ⟨b, h2, rfl⟩, c, h3, rfl⟩
    exact bind_succeeds h1 (bind_succeeds h2 (bind_succeeds h3 ⟨_, rfl, rfl⟩))

theorem gives_arguments {args : String} {first : Option String} {r : List Token} :
    Gives (arguments ts) (args, first) r ↔ Arguments args first ts r := by
  rw [arguments]
  constructor
  · rintro ⟨_, he, hv, rfl⟩
    obtain ⟨a, h1, he⟩ := bind_eq_ok.mp he
    obtain ⟨b, h2, he⟩ := bind_eq_ok.mp he
    obtain ⟨c, h3, he⟩ := bind_eq_ok.mp he
    cases he
    cases hv
    exact ⟨_, ⟨a, h1, rfl⟩, _, ⟨⟨b, h2, rfl, rfl⟩, rfl⟩, c, h3, rfl⟩
  · rintro ⟨_, ⟨a, h1, rfl⟩, _, ⟨⟨b, h2, rfl, rfl⟩, rfl⟩, c, h3, rfl⟩
    exact bind_succeeds h1 (bind_succeeds h2 (bind_succeeds h3 ⟨_, rfl, rfl, rfl⟩))

theorem optionalArguments_iff (ts r : List Token) : LeavesAny (optionalArguments ts) r ↔
    (startsWith "(" ts = true ∧ ∃ args first, Arguments args first ts r) ∨
      (startsWith "(" ts = false ∧ ts = r) := by
  rw [optionalArguments]
  cases hs : startsWith "(" ts with
  | true =>
    rw [if_pos rfl]
    constructor
    · rintro ⟨_, he, rfl⟩
      obtain ⟨b, h1, he⟩ := bind_eq_ok.mp he
      cases he
      exact .inl ⟨rfl, b.value.1, b.value.2, gives_arguments.mp ⟨b, h1, rfl, rfl⟩⟩
    · rintro (⟨-, args, first, h⟩ | ⟨h, -⟩)
      · obtain ⟨b, h1, -, rfl⟩ := gives_arguments.mpr h
        exact bind_succeeds h1 ⟨_, rfl, rfl⟩
      · cases h
  | false =>
    rw [if_neg (by decide)]
    constructor
    · rintro ⟨_, he, rfl⟩
      cases he
      exact .inr ⟨rfl, rfl⟩
    · rintro (⟨h, -⟩ | ⟨-, rfl⟩)
      · cases h
      · exact ⟨_, rfl, rfl⟩

private theorem local_condition : Local (fun ts r => Leaves (condition ts) r) ts := by
  apply Local.of_iff condition_iff
  refine .seq (Local.sign (by decide)) fun m _ => ?_
  exact .seq (expressionsLocal m).expression fun _ _ => Local.sign (by decide)

private theorem local_optionalExpression :
    Local (fun ts r => LeavesAny (optionalExpression ts) r) ts := by
  apply Local.of_iff optionalExpression_iff
  exact .or (.guard (fun _ => rfl) _ .stay) (.guard (fun _ => rfl) _ (expressionsLocal ts).expression)

private theorem local_optionalArguments :
    Local (fun ts r => LeavesAny (optionalArguments ts) r) ts := by
  apply Local.of_iff optionalArguments_iff
  refine .or (.guard (fun _ => rfl) _ ?_) (.guard (fun _ => rfl) _ .stay)
  exact .any fun args => .any fun first => local_arguments args first

/-- A keyword, or a plain name, that comes first. -/
private theorem local_keyword (k : Option Keyword) : Local (Takes (isKeyword k)) ts :=
  .token (fun _ => rfl) rfl

private theorem local_name (x : String) :
    Local (Takes fun t => isKeyword none t && t.lexeme == x) ts := .token (fun _ => rfl) rfl

/-- What a leaf passes before its end has no `;` in it. -/
theorem local_leafBody (kind : NodeKind) (tag : String) (first : Option String) :
    Local (LeafBody kind tag first) ts := by
  cases kind with
  | importDecl =>
    refine .when _ (.seq (local_keyword _) fun _ _ => ?_)
    exact .any fun x => .when _ (.names (by decide) x)
  | exportDecl =>
    refine .when _ (.seq (local_keyword _) fun _ _ => ?_)
    refine .seq (.any fun x => .names (by decide) x) fun _ _ => ?_
    refine .seq (.any fun x => .when _ (.names (by decide) x)) fun _ _ => ?_
    exact .seq (Local.sign (by decide)) fun o _ => (expressionsLocal o).expression
  | externDecl =>
    refine .when _ (.seq (local_keyword _) fun _ _ => ?_)
    refine .any fun x => .seq (.names (by decide) x) fun _ _ => ?_
    exact .any fun y => .when _ (.names (by decide) y)
  | useDecl =>
    refine .when _ (.seq (local_keyword _) fun _ _ => ?_)
    refine .any fun x => .seq (.names (by decide) x) fun _ _ => ?_
    exact .any fun args => .when _ (.any fun f => local_arguments args f)
  | directive =>
    refine .when _ (.seq (.token (fun _ => rfl) rfl) fun _ _ => ?_)
    refine .any fun x => .seq (.names (by decide) x) fun _ _ => ?_
    exact .any fun args => .when _ (.any fun f => local_arguments args f)
  | macroCall =>
    refine .when _ (.any fun x => .when _ (.seq (.token (fun _ => rfl) rfl) fun _ _ => ?_))
    refine .seq (Local.sign (by decide)) fun _ _ => ?_
    exact .seq local_optionalExpression fun _ _ => Local.sign (by decide)
  | variableDecl =>
    refine .when _ (.any fun x => .seq (local_name x) fun _ _ => .any fun y => ?_)
    exact .seq (.when _ (.names (by decide) y)) fun k _ => local_defaultValue k
  | methodReference =>
    refine .when _ (.any fun x => .seq (local_name x) fun _ _ => ?_)
    refine .seq (Local.sign (by decide)) fun _ _ => .any fun y => ?_
    refine .seq (.when _ (.names (by decide) y)) fun _ _ => ?_
    exact .any fun args => .any fun f => local_arguments args f
  | funCall =>
    refine .any fun x => .when _ (.seq (local_name x) fun _ _ => .any fun args => ?_)
    exact .followed (fun _ => rfl) _ (local_arguments args first)
  | root | sub | funBlock | conditional | elseIf | otherwise | element => exact fun _ h => h.elim

theorem local_opens (kind : NodeKind) (tag : String) : Local (Opens kind tag) ts := by
  cases kind with
  | sub =>
    refine .seq (local_keyword _) fun _ _ => .any fun x => ?_
    refine .seq (.when _ (.names (by decide) x)) fun _ _ => ?_
    refine .seq (Local.sign (by decide)) fun l _ => ?_
    exact .seq (local_params l) fun _ _ => Local.sign (by decide)
  | funBlock =>
    refine .any fun x => .seq (local_name x) fun _ _ => .any fun args => ?_
    exact .when _ (.any fun f => local_arguments args f)
  | conditional => exact .when _ (.seq (local_keyword _) fun _ _ => local_condition)
  | elseIf =>
    refine .when _ (.seq (.token (fun _ => rfl) rfl) fun _ _ => ?_)
    exact .seq (.token (fun _ => rfl) rfl) fun _ _ => local_condition
  | otherwise =>
    refine .when _ (.seq (.token (fun _ => rfl) rfl) fun _ _ => ?_)
    exact .guard (fun _ => rfl) _ local_optionalArguments
  | root | importDecl | exportDecl | variableDecl | externDecl | macroCall | directive | useDecl
  | funCall | methodReference | element => exact fun _ h => h.elim

end Local

section Unique

variable {ts r r' : List Token} {kind kind' : NodeKind} {tag tag' : String}

theorem eq_of_isKeyword {k k' : Option Keyword} {t : Token} (h : isKeyword k t = true)
    (h' : isKeyword k' t = true) : k = k' := by
  simp only [isKeyword, Bool.and_eq_true, decide_eq_true_eq] at h h'
  rw [← h.2, ← h'.2]

theorem Arguments.unique {args args' : String} {first first' : Option String}
    (h : Arguments args first ts r) (h' : Arguments args' first' ts r') : args = args' ∧ r = r' := by
  obtain ⟨hargs, rfl⟩ := (gives_arguments.mpr h).unique (gives_arguments.mpr h')
  exact ⟨(Prod.mk.inj hargs).1, rfl⟩

/-- The word that a block starts with. -/
private def opener : NodeKind → Option Keyword
  | .sub => some .sub
  | .conditional => some .conditional
  | .elseIf | .otherwise => some .otherwise
  | _ => none

theorem isKeyword_of_isWord {t : Token} (h : t.isWord "else" = true) :
    isKeyword (some .otherwise) t = true := by
  simp only [Token.isWord, Bool.and_eq_true, beq_iff_eq] at h
  simp [isKeyword, h.1, h.2, keyword?]

private theorem Opens.first (h : Opens kind tag ts r) :
    ∃ t m, ts = t :: m ∧ isKeyword (opener kind) t = true := by
  cases kind with
  | sub =>
    obtain ⟨m, ⟨t, rfl, ht⟩, -⟩ := h
    exact ⟨t, m, rfl, ht⟩
  | funBlock =>
    obtain ⟨x, m, ⟨t, rfl, ht⟩, -⟩ := h
    exact ⟨t, m, rfl, (Bool.and_eq_true_iff.mp ht).1⟩
  | conditional =>
    obtain ⟨-, m, ⟨t, rfl, ht⟩, -⟩ := h
    exact ⟨t, m, rfl, ht⟩
  | elseIf | otherwise =>
    obtain ⟨-, m, ⟨t, rfl, ht⟩, -⟩ := h
    exact ⟨t, m, rfl, isKeyword_of_isWord ht⟩
  | root | importDecl | exportDecl | variableDecl | externDecl | macroCall | directive | useDecl
  | funCall | methodReference | element => exact h.elim

private theorem Opens.kinds (h : Opens kind tag ts r) :
    kind ∈ [NodeKind.sub, .funBlock, .conditional, .elseIf, .otherwise] := by
  cases kind with
  | sub | funBlock | conditional | elseIf | otherwise => decide
  | root | importDecl | exportDecl | variableDecl | externDecl | macroCall | directive | useDecl
  | funCall | methodReference | element => exact h.elim

private theorem Opens.not_both (h : Opens .elseIf tag ts r) (h' : Opens .otherwise tag' ts r') :
    False := by
  obtain ⟨-, m, hm, k, ⟨t, rfl, ht⟩, -⟩ := h
  obtain ⟨-, m', hm', hnot, -⟩ := h'
  obtain rfl := hm.unique hm'
  simp [ht] at hnot

private theorem Opens.kind_unique (h : Opens kind tag ts r) (h' : Opens kind' tag' ts r') :
    kind = kind' := by
  obtain ⟨t, m, rfl, ht⟩ := h.first
  obtain ⟨_, _, heq, ht'⟩ := h'.first
  cases heq
  have hopener := eq_of_isKeyword ht ht'
  have hkind := h.kinds
  have hkind' := h'.kinds
  simp only [List.mem_cons, List.not_mem_nil, or_false] at hkind hkind'
  obtain rfl | rfl | rfl | rfl | rfl := hkind <;> obtain rfl | rfl | rfl | rfl | rfl := hkind' <;>
    first | rfl | exact (h.not_both h').elim | exact (h'.not_both h).elim | cases hopener

/-- What stands before a body tells what it is the body of. -/
theorem Opens.unique (h : Opens kind tag ts r) (h' : Opens kind' tag' ts r') :
    kind = kind' ∧ tag = tag' ∧ r = r' := by
  obtain rfl := h.kind_unique h'
  refine ⟨rfl, ?_⟩
  cases kind with
  | sub =>
    obtain ⟨m, hm, x, k, ⟨rfl, hk⟩, l, hl, o, ho, hr⟩ := h
    obtain ⟨m', hm', x', k', ⟨rfl, hk'⟩, l', hl', o', ho', hr'⟩ := h'
    obtain rfl := hm.unique hm'
    obtain ⟨rfl, rfl⟩ := hk.unique hk'
    obtain rfl := hl.unique hl'
    obtain rfl := ho.unique ho'
    exact ⟨rfl, hr.unique hr'⟩
  | funBlock =>
    obtain ⟨x, m, ⟨t, rfl, ht⟩, args, rfl, f, hargs⟩ := h
    obtain ⟨x', m', ⟨t', heq, ht'⟩, args', rfl, f', hargs'⟩ := h'
    cases heq
    obtain ⟨rfl, rfl⟩ := hargs.unique hargs'
    rw [Bool.and_eq_true, beq_iff_eq] at ht ht'
    rw [← ht.2, ← ht'.2]
    exact ⟨rfl, rfl⟩
  | conditional =>
    obtain ⟨rfl, m, hm, hr⟩ := h
    obtain ⟨rfl, m', hm', hr'⟩ := h'
    obtain rfl := hm.unique hm'
    exact ⟨rfl, hr.unique hr'⟩
  | elseIf =>
    obtain ⟨rfl, m, hm, k, hk, hr⟩ := h
    obtain ⟨rfl, m', hm', k', hk', hr'⟩ := h'
    obtain rfl := hm.unique hm'
    obtain rfl := hk.unique hk'
    exact ⟨rfl, hr.unique hr'⟩
  | otherwise =>
    obtain ⟨rfl, m, hm, -, hr⟩ := h
    obtain ⟨rfl, m', hm', -, hr'⟩ := h'
    obtain rfl := hm.unique hm'
    exact ⟨rfl, hr.unique hr'⟩
  | root | importDecl | exportDecl | variableDecl | externDecl | macroCall | directive | useDecl
  | funCall | methodReference | element => exact h.elim

end Unique

end ModWeave.Script
