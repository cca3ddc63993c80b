import ModWeave.Token.Script
import ModWeave.Tree.Construct
import ModWeave.Tree.Expression

/-! Trees of scripts. Argument text in a tag is the lexemes of its tokens with nothing in between, so
that blanks and comments never reach a signature. Positions count from the end: token lists are tails
of one list of `n` tokens. -/
namespace ModWeave.Script

/-- Tokens from the front of `ts` up to what is left of it. -/
def extent (n : Nat) (ts rest : List Token) : Extent := ⟨n - ts.length, n - rest.length⟩

/-- Line of the first token. -/
def lineOf (ts : List Token) : Nat := (ts.head?.map (·.place.line)).getD 1

/-- A construct without a body. -/
def leaf (n : Nat) (kind : NodeKind) (tag : String) (firstArg : Option String)
    (ts rest : List Token) : Construct :=
  .leaf kind tag (extent n ts rest) (lineOf ts) firstArg

/-- A tag with the arguments behind it, if there are any. -/
def tagWith (tag args : String) : String := if args = "" then tag else s!"{tag}:{args}"

/-- The characters between the quotes of a string token. -/
def unquoted (t : Token) : String := String.ofList (t.lexeme.toList.drop 1).dropLast

/-- A bracketed list of values: the text of all and of the first one. -/
def arguments (ts : List Token) : Except ParseError (Parsed (String × Option String) ts) := do
  let ⟨r, h⟩ ← expect "(" ts
  let list ← values ")" r
  let ⟨r₁, h₁⟩ := list.afterSome h
  let ⟨r₂, h₂⟩ := (← expect ")" r₁).afterSome h₁
  return ⟨(joinedTo r r₁, list.first), r₂, h₂⟩

/-- The leaf that ends before `rest`, or behind a `;` there. -/
def endLeaf (n : Nat) (kind : NodeKind) (tag : String) (firstArg : Option String)
    {ts : List Token} (rest : Rest ts) : Parsed Construct ts :=
  let ⟨r, h⟩ := rest
  let ⟨r₁, h₁⟩ := (skip ";" r).afterSome h
  ⟨leaf n kind tag firstArg ts r₁, r₁, h₁⟩

/-! Each reader below starts at the first token of its construct. Where that token is a keyword, the
caller has seen it. -/

def importDecl (n : Nat) (t : Token) (r : List Token) :
    Except ParseError (Parsed Construct (t :: r)) := do
  let ⟨path, r₁, h₁⟩ := (← expectKind .str .importPath r).afterSome (tail_shorter t r)
  return endLeaf n .importDecl s!"import:{unquoted path}" none ⟨r₁, h₁⟩

def exportDecl (n : Nat) (t : Token) (r : List Token) :
    Except ParseError (Parsed Construct (t :: r)) := do
  let ⟨_, r₁, h₁⟩ := (← expectKind .ident .exportType r).afterSome (tail_shorter t r)
  let ⟨name, r₂, h₂⟩ := (← expectKind .ident .exportName r₁).afterSome h₁
  let ⟨r₃, h₃⟩ := (← expect "=" r₂).afterSome h₂
  return endLeaf n .exportDecl s!"export:{name.lexeme}" none ((← expression r₃).afterSome h₃)

def externDecl (n : Nat) (t : Token) (r : List Token) :
    Except ParseError (Parsed Construct (t :: r)) := do
  let ⟨type, r₁, h₁⟩ := (← expectKind .ident .externType r).afterSome (tail_shorter t r)
  let ⟨name, r₂, h₂⟩ := (← expectKind .ident .externName r₁).afterSome h₁
  return endLeaf n .externDecl s!"extern:{type.lexeme}:{name.lexeme}" none ⟨r₂, h₂⟩

def useDecl (n : Nat) (t : Token) (r : List Token) :
    Except ParseError (Parsed Construct (t :: r)) := do
  let ⟨name, r₁, h₁⟩ := (← expectKind .ident .useName r).afterSome (tail_shorter t r)
  let ⟨(args, _), r₂, h₂⟩ := (← arguments r₁).afterSome h₁
  return endLeaf n .useDecl s!"use:{name.lexeme}:{args}" none ⟨r₂, h₂⟩

def directive (n : Nat) (t : Token) (r : List Token) :
    Except ParseError (Parsed Construct (t :: r)) := do
  let ⟨name, r₁, h₁⟩ := (← expectKind .ident .directiveName r).afterSome (tail_shorter t r)
  let ⟨(args, _), r₂, h₂⟩ := (← arguments r₁).afterSome h₁
  return endLeaf n .directive (tagWith s!"directive:{name.lexeme}" args) none ⟨r₂, h₂⟩

/-- An expression, unless there is a closing bracket. -/
def optionalExpression (ts : List Token) : Except ParseError (Remainder ts) := do
  if startsWith ")" ts then return ⟨ts, self_atMost ts⟩
  else return (← expression ts).toRemainder

def macroCall (n : Nat) (t : Token) (r : List Token) :
    Except ParseError (Parsed Construct (t :: r)) := do
  let ⟨r₁, h₁⟩ := (← expect "(" r).afterSome (tail_shorter t r)
  let ⟨r₂, h₂⟩ := (← optionalExpression r₁).afterSome h₁
  return endLeaf n .macroCall s!"macro:{t.lexeme}" none ((← expect ")" r₂).afterSome h₂)

/-- Starts at the type, with the name behind it. -/
def variableDecl (n : Nat) (type : Token) (r : List Token) :
    Except ParseError (Parsed Construct (type :: r)) := do
  let ⟨name, r₁, h₁⟩ := (← expectKind .ident .variableName r).afterSome (tail_shorter type r)
  return endLeaf n .variableDecl s!"variable:{type.lexeme}:{name.lexeme}" none
    ((← defaultValue r₁).afterSome h₁)

/-- Starts at the receiver, with `::` behind it. -/
def methodReference (n : Nat) (receiver : Token) (r : List Token) :
    Except ParseError (Parsed Construct (receiver :: r)) := do
  let ⟨r₁, h₁⟩ := (← expect "::" r).afterSome (tail_shorter receiver r)
  let ⟨method, r₂, h₂⟩ := (← expectKind .ident .methodName r₁).afterSome h₁
  return endLeaf n .methodReference s!"methodReference:{receiver.lexeme}:{method.lexeme}" none
    ((← arguments r₂).toRest.afterSome h₂)

/-- A bracketed condition. -/
def condition (ts : List Token) : Except ParseError (Rest ts) := do
  let ⟨r, h⟩ ← expect "(" ts
  let ⟨r₁, h₁⟩ := (← expression r).afterSome h
  return (← expect ")" r₁).afterSome h₁

/-- A bracketed list of values, or nothing. -/
def optionalArguments (ts : List Token) : Except ParseError (Remainder ts) := do
  if startsWith "(" ts then return (← arguments ts).toRest.toRemainder
  else return ⟨ts, self_atMost ts⟩

/-- The words that open a construct of their own. -/
inductive Keyword where
  | importDecl
  | exportDecl
  | externDecl
  | sub
  | useDecl
  | conditional
  | otherwise

def keyword? : String → Option Keyword
  | "import" => some .importDecl
  | "export" => some .exportDecl
  | "extern" => some .externDecl
  | "sub" => some .sub
  | "use" => some .useDecl
  | "if" => some .conditional
  | "else" => some .otherwise
  | _ => none

/-- A body with the positions of its braces. -/
abbrev Body := Braces × List Construct

mutual

/-- One statement. A lone `;` is one and makes no construct. -/
def statement (n : Nat) (ts : List Token) : Except ParseError (Parsed (Option Construct) ts) :=
  match ts with
  | [] => .error (.unexpectedEnd .statement)
  | t :: r =>
    match t.kind with
    | .punct =>
      if t.lexeme = ";" then .ok ⟨none, r, tail_shorter t r⟩
      else if t.lexeme = "!" then do return (← directive n t r).map some
      else .error (unexpected .statement (t :: r))
    | .macroName => do return (← macroCall n t r).map some
    | .ident =>
      match keyword? t.lexeme with
      | some .importDecl => do return (← importDecl n t r).map some
      | some .exportDecl => do return (← exportDecl n t r).map some
      | some .externDecl => do return (← externDecl n t r).map some
      | some .useDecl => do return (← useDecl n t r).map some
      | some .sub => do
        let ⟨name, r₁, h₁⟩ := (← expectKind .ident .subName r).afterSome (tail_shorter t r)
        let ⟨r₂, h₂⟩ := (← expect "(" r₁).afterSome h₁
        let ⟨r₃, h₃⟩ := (← params r₂).afterSome h₂
        let ⟨r₄, h₄⟩ := (← expect ")" r₃).afterSome h₃
        let ⟨(braces, body), r₅, h₅⟩ := (← block n r₄).afterSome h₄
        return ⟨some (.block .sub s!"sub:{name.lexeme}" (extent n (t :: r) r₅) t.place.line braces
          body), r₅, h₅⟩
      | some .conditional => do
        let ⟨r₁, h₁⟩ := (← condition r).afterSome (tail_shorter t r)
        let ⟨(braces, body), r₂, h₂⟩ := (← block n r₁).afterSome h₁
        let ⟨more, left⟩ ← clauses n r₂
        let ⟨r₃, h₃⟩ := left.afterSome h₂
        return ⟨some (.block .conditional "if" (extent n (t :: r) r₃) t.place.line braces
          (body ++ more)), r₃, h₃⟩
      | some .otherwise => .error (unexpected .statement (t :: r))
      | none =>
        match r.head? with
        | none => .error (unexpected .declaration r)
        | some next =>
          if next.kind = .ident then do return (← variableDecl n t r).map some
          else if next.isPunct "::" then do return (← methodReference n t r).map some
          else if next.isPunct "(" then do
            let ⟨(args, first), r₁, h₁⟩ := (← arguments r).afterSome (tail_shorter t r)
            if startsWith "\x7b" r₁ then
              let ⟨(braces, body), r₂, h₂⟩ := (← block n r₁).afterSome h₁
              return ⟨some (.block .funBlock (tagWith s!"funBlock:{t.lexeme}" args)
                (extent n (t :: r) r₂) t.place.line braces body), r₂, h₂⟩
            else return (endLeaf n .funCall s!"funCall:{t.lexeme}" first ⟨r₁, h₁⟩).map some
          else .error (unexpected .declaration r)
    | _ => .error (unexpected .statement (t :: r))
termination_by 2 * ts.length
decreasing_by all_goals simp only [List.length_cons] at *; omega

/-- A braced body. -/
def block (n : Nat) (ts : List Token) : Except ParseError (Parsed Body ts) := do
  let ⟨r, h⟩ ← expect "\x7b" ts
  let ⟨(closing, body), r₁, h₁⟩ := (← blockRest n r).afterSome h
  return ⟨(⟨n - ts.length, closing⟩, body), r₁, h₁⟩
termination_by 2 * ts.length

/-- The statements of a body up to its closing brace, with the position of that. -/
def blockRest (n : Nat) (ts : List Token) :
    Except ParseError (Parsed (Nat × List Construct) ts) := do
  match eat "\x7d" ts with
  | some ⟨r, h⟩ => return ⟨(n - ts.length, []), r, h⟩
  | none =>
    if ts.isEmpty then throw (.unexpectedEnd (.sign "\x7d"))
    let ⟨c, r, h⟩ ← statement n ts
    let ⟨(closing, body), r₁, h₁⟩ := (← blockRest n r).afterSome h
    return ⟨(closing, c.toList ++ body), r₁, h₁⟩
termination_by 2 * ts.length + 1

/-- The clauses behind the body of an `if`. An `else` without `if` is the last one. -/
def clauses (n : Nat) (ts : List Token) :
    Except ParseError ((_ : List Construct) × Remainder ts) := do
  match eatIf (·.isWord "else") ts with
  | none => return ⟨[], ts, self_atMost ts⟩
  | some ⟨r, h⟩ =>
    match eatIf (·.isWord "if") r with
    | some word =>
      let ⟨r₁, h₁⟩ := word.afterSome h
      let ⟨r₂, h₂⟩ := (← condition r₁).afterSome h₁
      let ⟨(braces, body), r₃, h₃⟩ := (← block n r₂).afterSome h₂
      let ⟨more, left⟩ ← clauses n r₃
      let clause : Construct := .block .elseIf "elseif" (extent n ts r₃) (lineOf ts) braces body
      return ⟨clause :: more, (left.afterSome h₃).toRemainder⟩
    | none =>
      let ⟨r₁, h₁⟩ := (← optionalArguments r).afterSome h
      let ⟨(braces, body), r₂, h₂⟩ := (← block n r₁).afterSome h₁
      let clause : Construct := .block .otherwise "else" (extent n ts r₂) (lineOf ts) braces body
      return ⟨[clause], Rest.toRemainder ⟨r₂, h₂⟩⟩
termination_by 2 * ts.length

end

/-- Statements up to the end of the tokens. -/
def statements (n : Nat) (ts : List Token) : Except ParseError (List Construct) := do
  if ts.isEmpty then return []
  let ⟨c, r, _⟩ ← statement n ts
  return c.toList ++ (← statements n r)
termination_by ts.length

/-- The tree of a script. -/
def parse (text : List Char) : Except ParseError Tree := do
  let s ← source text
  return .ofConstructs s (← statements s.tokens.length s.tokens)

end ModWeave.Script
