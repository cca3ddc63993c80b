import ModWeave.Text.Rest
import ModWeave.Token.Basic
import ModWeave.Token.Error

/-! Reading from the front of a token list. -/
namespace ModWeave

/-- The fault of a list that does not start as expected. -/
def unexpected (e : Expectation) : List Token → ParseError
  | [] => .unexpectedEnd e
  | t :: _ => .unexpectedToken t.lexeme e t.place

/-- Passes a token that satisfies `p`, if the list starts with one. -/
def eatIf (p : Token → Bool) (ts : List Token) : Option (Rest ts) :=
  match ts with
  | [] => none
  | t :: r => if p t then some ⟨r, tail_shorter t r⟩ else none

/-- Passes the punctuation `sign`, if the list starts with it. -/
def eat (sign : String) (ts : List Token) : Option (Rest ts) := eatIf (·.isPunct sign) ts

/-- Passes the punctuation `sign` or leaves the list as it is. -/
def skip (sign : String) (ts : List Token) : Remainder ts :=
  match eat sign ts with
  | some r => r.toRemainder
  | none => ⟨ts, self_atMost ts⟩

/-- Passes the punctuation `sign`, or fails with `e`. -/
def expectSign (sign : String) (e : Expectation) (ts : List Token) : Except ParseError (Rest ts) :=
  match eat sign ts with
  | some r => .ok r
  | none => .error (unexpected e ts)

/-- Reads a token of a kind, or fails with `e`. -/
def expectKind (kind : TokenKind) (e : Expectation) (ts : List Token) :
    Except ParseError (Parsed Token ts) :=
  match ts with
  | [] => .error (.unexpectedEnd e)
  | t :: r => if t.kind = kind then .ok ⟨t, r, tail_shorter t r⟩ else .error (unexpected e (t :: r))

/-- Whether the list starts with the punctuation `sign`. -/
def startsWith (sign : String) (ts : List Token) : Bool := ts.head?.any (·.isPunct sign)

/-- Lexemes of the tokens between `ts` and what is left of it, with nothing in between. -/
def joinedTo (ts rest : List Token) : String :=
  String.join ((ts.take (ts.length - rest.length)).map Token.lexeme)

end ModWeave
