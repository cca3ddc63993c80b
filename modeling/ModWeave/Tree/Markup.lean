import ModWeave.Token.Markup
import ModWeave.Tree.Construct
import ModWeave.Tree.Reading

/-! Trees of markup documents. An element is tagged by its name and its `id`, or by its position among
the elements next to it. One with elements inside is a block, unless there is text beside them: then
it is a leaf, so that the text counts. Positions count from the end: token lists are tails of one list
of `n` tokens. -/
namespace ModWeave.Markup

/-- Punctuation that has to follow. -/
def expect (sign : String) (ts : List Token) : Except ParseError (Rest ts) :=
  expectSign sign (.delimiter sign) ts

/-- The characters between the quotes of a value. -/
def unquoted (t : Token) : String := String.ofList (t.lexeme.toList.drop 1).dropLast

/-- Tag of the element called `name`, at position `i` among the elements next to it. An empty `id`
counts as none. -/
def elementTag (name : String) (id : Option String) (i : Nat) : String :=
  "element:" ++ name ++ ":" ++ (id.filter (· ≠ "")).getD (toString i)

/-- Attributes up to the end of a start tag, which stays. Gives the value of the last `id`, or `id` as
it was. -/
def attributes (id : Option String) (ts : List Token) :
    Except ParseError ((_ : Option String) × Remainder ts) := do
  if startsWith "/>" ts || startsWith ">" ts then return ⟨id, ts, self_atMost ts⟩
  else
    let ⟨name, r, h⟩ ← expectKind .ident .attribute ts
    let ⟨r₁, h₁⟩ := (← expect "=" r).afterSome h
    let ⟨value, r₂, h₂⟩ := (← expectKind .str .attributeValue r₁).afterSome h₁
    let ⟨id, left⟩ ← attributes (if name.lexeme = "id" then some (unquoted value) else id) r₂
    return ⟨id, (left.afterSome h₂).toRemainder⟩
termination_by ts.length

/-- What stands between a start tag and its end tag. -/
structure Contents where
  /-- Position of the `</`. -/
  closing : Nat
  hasText : Bool
  elements : List Construct

/-- Closes the element called `name` behind the `</`. -/
def endTag (name : String) (ts : List Token) : Except ParseError (Rest ts) := do
  let ⟨closing, r, h⟩ ← expectKind .ident .endTagName ts
  if closing.lexeme ≠ name then throw (unexpected (.endTag name) ts)
  return (← expect ">" r).afterSome h

mutual

/-- One element, at position `i` among the elements next to it. -/
def element (n i : Nat) (ts : List Token) : Except ParseError (Parsed Construct ts) := do
  let ⟨r, h⟩ ← expect "<" ts
  let ⟨name, r₁, h₁⟩ := (← expectKind .ident .elementName r).afterSome h
  let ⟨id, left⟩ ← attributes none r₁
  let ⟨r₂, h₂⟩ := left.afterSome h₁
  let tag := elementTag name.lexeme id i
  let line := (ts.head?.map (·.place.line)).getD 1
  match eat "/>" r₂ with
  | some sign =>
    let ⟨r₃, h₃⟩ := sign.afterSome h₂
    return ⟨.leaf .element tag ⟨n - ts.length, n - r₃.length⟩ line none, r₃, h₃⟩
  | none =>
    let ⟨r₃, h₃⟩ := (← expect ">" r₂).afterSome h₂
    let ⟨inner, r₄, h₄⟩ := (← contents n name.lexeme 0 r₃).afterSome h₃
    let ⟨r₅, h₅⟩ := (← endTag name.lexeme r₄).afterSome h₄
    let tokens : Extent := ⟨n - ts.length, n - r₅.length⟩
    let c : Construct :=
      if inner.elements.isEmpty || inner.hasText then .leaf .element tag tokens line none
      else .block .element tag tokens line ⟨n - r₂.length, inner.closing⟩ inner.elements
    return ⟨c, r₅, h₅⟩
termination_by 2 * ts.length

/-- Elements and text up to the next `</` of the element called `name`; `i` elements precede them. -/
def contents (n : Nat) (name : String) (i : Nat) (ts : List Token) :
    Except ParseError (Parsed Contents ts) := do
  match eat "</" ts with
  | some ⟨r, h⟩ => return ⟨⟨n - ts.length, false, []⟩, r, h⟩
  | none =>
    match eatIf (·.kind == .text) ts with
    | some ⟨r, h⟩ =>
      let inner := (← contents n name i r).afterSome h
      return inner.map fun c => { c with hasText := true }
    | none =>
      if ts.isEmpty then throw (.unexpectedEnd (.endTag name))
      if !startsWith "<" ts then throw (unexpected .content ts)
      let ⟨c, r, h⟩ ← element n i ts
      let inner := (← contents n name (i + 1) r).afterSome h
      return inner.map fun inside => { inside with elements := c :: inside.elements }
termination_by 2 * ts.length + 1

end

/-- Elements up to the end of the tokens; `i` elements precede them. -/
def elements (n i : Nat) (ts : List Token) : Except ParseError (List Construct) := do
  if ts.isEmpty then return []
  if !startsWith "<" ts then throw (unexpected .element ts)
  let ⟨c, r, _⟩ ← element n i ts
  return c :: (← elements n (i + 1) r)
termination_by ts.length

/-- The tree of a document. Its top-level elements hang off an unnamed root. -/
def parse (text : List Char) : Except ParseError Tree := do
  let s ← source text
  return .ofConstructs s (← elements s.tokens.length 0 s.tokens)

end ModWeave.Markup
