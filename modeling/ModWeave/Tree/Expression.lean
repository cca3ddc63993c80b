import ModWeave.Tree.Reading

/-! Expressions of a script. They are read for their extent only. -/
namespace ModWeave.Script

def isUnaryOperator (t : Token) : Bool :=
  t.kind == .punct && ["~", "!", "-", "+"].contains t.lexeme

def isBinaryOperator (t : Token) : Bool :=
  t.kind == .punct &&
    ["+", "-", "*", "/", "%", "&", "|", "^", "&&", "||", "==", "!=", "<", ">", "<=", ">="].contains
      t.lexeme

/-- Punctuation that has to follow. -/
def expect (sign : String) (ts : List Token) : Except ParseError (Rest ts) :=
  expectSign sign (.sign sign) ts

/-- Passes the name of a named value together with its `=`. -/
def skipValueName (ts : List Token) : Remainder ts :=
  match ts with
  | [] => ⟨[], self_atMost []⟩
  | name :: r =>
    match if name.kind == .ident then eat "=" r else none with
    | some r₁ => (r₁.afterSome (tail_shorter name r)).toRemainder
    | none => ⟨name :: r, self_atMost (name :: r)⟩

/-- A comma list of values: the text of the first one, if there is any, and what is left. -/
structure Values (ts : List Token) where
  first : Option String
  rest : List Token
  atMost : rest.length ≤ ts.length

/-- What is left after the values, in a list of which at least one token was passed before. -/
def Values.afterSome {ts r : List Token} (a : Values r) (h : r.length < ts.length) : Rest ts :=
  ⟨a.rest, Nat.lt_of_le_of_lt a.atMost h⟩

mutual

/-- Operands joined by binary operators, all of one rank, and at most one choice `? :` behind. -/
def expression (ts : List Token) : Except ParseError (Rest ts) := do
  let ⟨r, h⟩ ← operand ts
  let ⟨r₁, h₁⟩ := (← operations r).afterSome h
  match eat "?" r₁ with
  | none => return ⟨r₁, h₁⟩
  | some choice =>
    let ⟨r₂, h₂⟩ := choice.afterSome h₁
    let ⟨r₃, h₃⟩ := (← expression r₂).afterSome h₂
    let ⟨r₄, h₄⟩ := (← expect ":" r₃).afterSome h₃
    return (← expression r₄).afterSome h₄
termination_by 4 * ts.length + 3

/-- Binary operators with an operand behind each. -/
def operations (ts : List Token) : Except ParseError (Remainder ts) := do
  match eatIf isBinaryOperator ts with
  | none => return ⟨ts, self_atMost ts⟩
  | some ⟨r, h⟩ =>
    let ⟨r₁, h₁⟩ := (← operand r).afterSome h
    return ((← operations r₁).afterSome h₁).toRemainder
termination_by 4 * ts.length + 3

/-- Unary operators, a primary expression, and the accesses behind it. -/
def operand (ts : List Token) : Except ParseError (Rest ts) := do
  let ⟨r, h⟩ := skipWhile isUnaryOperator ts
  let ⟨r₁, h₁⟩ := (← primary r).afterAny h
  return (← accesses r₁).afterSome h₁
termination_by 4 * ts.length + 2

/-- Fields, argument lists and subscripts. -/
def accesses (ts : List Token) : Except ParseError (Remainder ts) := do
  match eat "." ts with
  | some ⟨r, h⟩ =>
    let ⟨r₁, h₁⟩ := (← expectKind .ident .fieldName r).toRest.afterSome h
    return ((← accesses r₁).afterSome h₁).toRemainder
  | none =>
    match eat "(" ts with
    | some ⟨r, h⟩ =>
      let ⟨r₁, h₁⟩ := (← values ")" r).afterSome h
      let ⟨r₂, h₂⟩ := (← expect ")" r₁).afterSome h₁
      return ((← accesses r₂).afterSome h₂).toRemainder
    | none =>
      match eat "[" ts with
      | some ⟨r, h⟩ =>
        let ⟨r₁, h₁⟩ := (← expression r).afterSome h
        let ⟨r₂, h₂⟩ := (← expect "]" r₁).afterSome h₁
        return ((← accesses r₂).afterSome h₂).toRemainder
      | none => return ⟨ts, self_atMost ts⟩
termination_by 4 * ts.length + 3

/-- A literal, a macro name, a name or a member of one, a bracketed expression or an array. -/
def primary (ts : List Token) : Except ParseError (Rest ts) :=
  match ts with
  | [] => .error (.unexpectedEnd .expression)
  | t :: r =>
    match t.kind with
    | .number | .str | .macroName => .ok ⟨r, tail_shorter t r⟩
    | .ident =>
      match eat "::" r with
      | some member => do
        let ⟨r₁, h₁⟩ := member.afterSome (tail_shorter t r)
        return (← expectKind .ident .memberName r₁).toRest.afterSome h₁
      | none => .ok ⟨r, tail_shorter t r⟩
    | .punct =>
      if t.lexeme = "(" then do
        let ⟨r₁, h₁⟩ := (← expression r).afterSome (tail_shorter t r)
        return (← expect ")" r₁).afterSome h₁
      else if t.lexeme = "[" then do
        let ⟨r₁, h₁⟩ := (← values "]" r).afterSome (tail_shorter t r)
        return (← expect "]" r₁).afterSome h₁
      else .error (unexpected .expression (t :: r))
    | .text => .error (unexpected .expression (t :: r))
termination_by 4 * ts.length + 1

/-- Values up to `close`, which stays. A comma may stand behind the last one. -/
def values (close : String) (ts : List Token) : Except ParseError (Values ts) := do
  if startsWith close ts then return ⟨none, ts, self_atMost ts⟩
  else
    let ⟨r, h⟩ := skipValueName ts
    let ⟨r₁, h₁⟩ := (← expression r).afterAny h
    let first := joinedTo ts r₁
    match eat "," r₁ with
    | none =>
      let ⟨r₂, h₂⟩ := Rest.toRemainder ⟨r₁, h₁⟩
      return ⟨some first, r₂, h₂⟩
    | some comma =>
      let ⟨r₂, h₂⟩ := comma.afterSome h₁
      let ⟨r₃, h₃⟩ := ((← values close r₂).afterSome h₂).toRemainder
      return ⟨some first, r₃, h₃⟩
termination_by 4 * ts.length + 4

end

/-- A default value behind `=`, if there is one. -/
def defaultValue (ts : List Token) : Except ParseError (Remainder ts) := do
  match eat "=" ts with
  | none => return ⟨ts, self_atMost ts⟩
  | some ⟨r, h⟩ => return ((← expression r).afterSome h).toRemainder

/-- A name, or nothing. -/
def optionalName (ts : List Token) : Remainder ts :=
  match eatIf (·.kind == .ident) ts with
  | none => ⟨ts, self_atMost ts⟩
  | some r => r.toRemainder

/-- Parameters up to the closing bracket, which stays: a type, a name or none, a default or none. -/
def params (ts : List Token) : Except ParseError (Remainder ts) := do
  if startsWith ")" ts then return ⟨ts, self_atMost ts⟩
  else
    let ⟨r, h⟩ := (← expectKind .ident .parameterType ts).toRest
    let ⟨r₁, h₁⟩ := (optionalName r).afterSome h
    let ⟨r₂, h₂⟩ := (← defaultValue r₁).afterSome h₁
    match eat "," r₂ with
    | none => return Rest.toRemainder ⟨r₂, h₂⟩
    | some comma =>
      let ⟨r₃, h₃⟩ := comma.afterSome h₂
      return ((← params r₃).afterSome h₃).toRemainder
termination_by ts.length

end ModWeave.Script
