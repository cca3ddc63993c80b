import ModWeave.Document.Basic
import ModWeave.Text.Rest

/-!
Reading JSON. Readers work on the characters that are left, and what they leave over is shorter.
-/
namespace ModWeave.Document

def isSpace (c : Char) : Bool := c = ' ' || c = '\n' || c = '\t' || c = '\r'

/-- What a string is made of: characters, and 16-bit units written in digits. -/
inductive Piece where
  | char (c : Char)
  | unit (n : Nat)
deriving DecidableEq, Repr

/-- The character of a short escape. -/
def escaped? : Char → Option Char
  | '"' => some '"'
  | '\\' => some '\\'
  | '/' => some '/'
  | 'b' => some '\x08'
  | 'f' => some '\x0c'
  | 'n' => some '\n'
  | 'r' => some '\r'
  | 't' => some '\t'
  | _ => none

/-- The value of a hexadecimal digit in either case. -/
def hexValue? (c : Char) : Option Nat :=
  if c.isDigit then some (c.toNat - '0'.toNat)
  else if 'a' ≤ c ∧ c ≤ 'f' then some (c.toNat - 'a'.toNat + 10)
  else if 'A' ≤ c ∧ c ≤ 'F' then some (c.toNat - 'A'.toNat + 10)
  else none

def hexNumber? (digits : List Char) : Option Nat :=
  digits.foldlM (fun n c => (hexValue? c).map (16 * n + ·)) 0

/-- What is left behind a quote that a text starts with. -/
def closingQuote? (cs : List Char) : Option (Rest cs) :=
  match cs with
  | [] => none
  | c :: r => if c = '"' then some ⟨r, tail_shorter c r⟩ else none

/-- The unit of four hexadecimal digits, and what is left behind them. -/
def escapedUnit? (cs : List Char) : Option (Parsed Piece cs) :=
  match cs with
  | a :: b :: c :: d :: r =>
    (hexNumber? [a, b, c, d]).map fun n =>
      Parsed.afterSome (Parsed.afterSome (Parsed.afterSome ⟨.unit n, r, tail_shorter d r⟩
        (tail_shorter c (d :: r))) (tail_shorter b (c :: d :: r))) (tail_shorter a (b :: c :: d :: r))
  | _ => none

/-- The piece behind a backslash. -/
def escapedPiece? (cs : List Char) : Option (Parsed Piece cs) :=
  match cs with
  | [] => none
  | e :: r =>
    if e = 'u' then (escapedUnit? r).map (·.afterSome (tail_shorter e r))
    else (escaped? e).map fun c => ⟨.char c, r, tail_shorter e r⟩

/-- The piece that a text starts with. -/
def piece? (cs : List Char) : Option (Parsed Piece cs) :=
  match cs with
  | [] => none
  | c :: r =>
    if c = '\\' then (escapedPiece? r).map (·.afterSome (tail_shorter c r))
    else if c.toNat < 0x20 then none
    else some ⟨.char c, r, tail_shorter c r⟩

/-- The pieces of a string up to its closing quote, which is passed. -/
def pieces (cs : List Char) : Option (Parsed (List Piece) cs) :=
  match closingQuote? cs with
  | some r => some ⟨[], r.val, r.property⟩
  | none => do
    let ⟨p, r, h⟩ ← piece? cs
    return ((← pieces r).map (p :: ·)).afterSome h
termination_by cs.length

/-- Whether a unit is the first or the second half of a pair. -/
def isHighHalf (n : Nat) : Bool := 0xD800 ≤ n && n ≤ 0xDBFF

def isLowHalf (n : Nat) : Bool := 0xDC00 ≤ n && n ≤ 0xDFFF

/-- The text that pieces spell. A first half needs the second half directly behind it. -/
def spell : List Piece → Option (List Char)
  | [] => some []
  | .char c :: rest => (spell rest).map (c :: ·)
  | .unit n :: rest =>
    if isLowHalf n then none
    else if isHighHalf n then
      match rest with
      | .unit m :: rest =>
        if isLowHalf m then
          (spell rest).map (Char.ofNat (0x10000 + (n - 0xD800) * 0x400 + (m - 0xDC00)) :: ·)
        else none
      | _ => none
    else (spell rest).map (Char.ofNat n :: ·)

/-- A string behind its opening quote. -/
def string (cs : List Char) : Option (Parsed Spelled cs) :=
  (pieces cs).map fun p => ⟨(spell p.value).map String.ofList, p.rest, p.shorter⟩

/-- At least one digit. -/
def digits (cs : List Char) : Option (Parsed (List Char) cs) :=
  match cs with
  | [] => none
  | c :: r =>
    if c.isDigit then
      let ⟨r₁, h₁⟩ := (skipWhile Char.isDigit r).afterSome (tail_shorter c r)
      some ⟨c :: r.takeWhile Char.isDigit, r₁, h₁⟩
    else none

/-- Digits without a zero in front of others. -/
def wholeDigits (cs : List Char) : Option (Parsed (List Char) cs) :=
  (digits cs).filter fun p => p.value.head? ≠ some '0' || p.value.length = 1

/-- A fraction, if there is one. -/
def fraction (cs : List Char) : Option (Remainder cs) :=
  match cs with
  | [] => some ⟨[], self_atMost []⟩
  | c :: r =>
    if c = '.' then (digits r).map fun p => (p.toRest.afterSome (tail_shorter c r)).toRemainder
    else some ⟨c :: r, self_atMost (c :: r)⟩

/-- Digits with a sign in front or without. -/
def signedDigits (cs : List Char) : Option (Rest cs) :=
  match cs with
  | [] => none
  | c :: r =>
    if c = '+' ∨ c = '-' then (digits r).map fun p => p.toRest.afterSome (tail_shorter c r)
    else (digits (c :: r)).map Parsed.toRest

/-- An exponent, if there is one. -/
def exponent (cs : List Char) : Option (Remainder cs) :=
  match cs with
  | [] => some ⟨[], self_atMost []⟩
  | c :: r =>
    if c = 'e' ∨ c = 'E' then
      (signedDigits r).map fun rest => (rest.afterSome (tail_shorter c r)).toRemainder
    else some ⟨c :: r, self_atMost (c :: r)⟩

/-- The number that decimal digits write. -/
def decimal (ds : List Char) : Nat := ds.foldl (fun n c => 10 * n + (c.toNat - '0'.toNat)) 0

/-- A number without a sign. It is natural unless it has a fraction or an exponent. -/
def unsigned (cs : List Char) : Option (Parsed Document cs) := do
  let ⟨whole, r, h⟩ ← wholeDigits cs
  let ⟨r₁, h₁⟩ := (← fraction r).afterSome h
  let ⟨r₂, h₂⟩ := (← exponent r₁).afterSome h₁
  let d : Document :=
    if r₂.length = r.length then .natural (decimal whole)
    else .number (String.ofList (cs.take (cs.length - r₂.length)))
  return ⟨d, r₂, h₂⟩

/-- A number. A sign makes it other than natural, also before zero. -/
def number? (cs : List Char) : Option (Parsed Document cs) :=
  match cs with
  | [] => none
  | c :: r =>
    if c = '-' then do
      let ⟨r₁, h₁⟩ := (← unsigned r).toRest.afterSome (tail_shorter c r)
      return ⟨.number (String.ofList (c :: r.take (r.length - r₁.length))), r₁, h₁⟩
    else unsigned (c :: r)

/-- Passes the letters of a word. -/
def word? : (word cs : List Char) → Option (Remainder cs)
  | [], cs => some ⟨cs, self_atMost cs⟩
  | _ :: _, [] => none
  | w :: ws, c :: r =>
    if w = c then (word? ws r).map fun rest => (rest.afterSome (tail_shorter c r)).toRemainder
    else none

/-- One of the three names. -/
def name? (cs : List Char) : Option (Parsed Document cs) :=
  match cs with
  | [] => none
  | c :: r =>
    let named (word : String) (d : Document) : Option (Parsed Document (c :: r)) := do
      let ⟨r₁, h₁⟩ := (← word? word.toList r).afterSome (tail_shorter c r)
      return ⟨d, r₁, h₁⟩
    if c = 'n' then named "ull" .null
    else if c = 't' then named "rue" (.bool true)
    else if c = 'f' then named "alse" (.bool false)
    else none

/-- Passes white space and then `sign`. -/
def sign (sign : Char) (cs : List Char) : Option (Rest cs) :=
  let left := skipWhile isSpace cs
  match left.val, left.property with
  | [], _ => none
  | c :: r, h => if c = sign then some (Rest.afterAny ⟨r, tail_shorter c r⟩ h) else none

mutual

/-- A value, with white space in front. -/
def value (cs : List Char) : Option (Parsed Document cs) :=
  match sign '{' cs with
  | some ⟨r, h⟩ =>
    match sign '}' r with
    | some close =>
      let ⟨r₁, h₁⟩ := close.afterSome h
      some ⟨.record [], r₁, h₁⟩
    | none => do return ((← fields r).map .record).afterSome h
  | none =>
    match sign '[' cs with
    | some ⟨r, h⟩ =>
      match sign ']' r with
      | some close =>
        let ⟨r₁, h₁⟩ := close.afterSome h
        some ⟨.list [], r₁, h₁⟩
      | none => do return ((← items r).map .list).afterSome h
    | none =>
      match sign '"' cs with
      | some ⟨r, h⟩ => do return ((← string r).map .text).afterSome h
      | none => do
        let ⟨r, h⟩ := skipWhile isSpace cs
        return (← (name? r).or (number? r)).afterAny h
termination_by 3 * cs.length

/-- At least one item, and the closing bracket behind the last. -/
def items (cs : List Char) : Option (Parsed (List Document) cs) := do
  let ⟨d, r, h⟩ ← value cs
  match sign ',' r with
  | some comma =>
    let ⟨r₁, h₁⟩ := comma.afterSome h
    return ((← items r₁).map (d :: ·)).afterSome h₁
  | none =>
    let ⟨r₁, h₁⟩ := (← sign ']' r).afterSome h
    return ⟨[d], r₁, h₁⟩
termination_by 3 * cs.length + 1

/-- At least one named field, and the closing brace behind the last. -/
def fields (cs : List Char) : Option (Parsed (List (Spelled × Document)) cs) := do
  let ⟨r, h⟩ ← sign '"' cs
  let ⟨name, r₁, h₁⟩ := (← string r).afterSome h
  let ⟨r₂, h₂⟩ := (← sign ':' r₁).afterSome h₁
  let ⟨d, r₃, h₃⟩ := (← value r₂).afterSome h₂
  match sign ',' r₃ with
  | some comma =>
    let ⟨r₄, h₄⟩ := comma.afterSome h₃
    return ((← fields r₄).map ((name, d) :: ·)).afterSome h₄
  | none =>
    let ⟨r₄, h₄⟩ := (← sign '}' r₃).afterSome h₃
    return ⟨[(name, d)], r₄, h₄⟩
termination_by 3 * cs.length + 2

end

/-- The document that a text is. -/
def parse? (cs : List Char) : Option Document := do
  let ⟨d, r, _⟩ ← value cs
  if r.all isSpace then some d else none

end ModWeave.Document
