import ModWeave.Text.Place

/-! Tokens of a source text, and the text together with its tokens. -/
namespace ModWeave

open Text

/-- What a token is. `macroName` is a `$` name; `text` is character data of a markup document or a
CDATA section. -/
inductive TokenKind where
  | ident
  | macroName
  | number
  | str
  | punct
  | text
deriving DecidableEq, Repr

/-- A token: its characters as written, and the place of the first one. -/
structure Token where
  kind : TokenKind
  lexeme : String
  place : Place
deriving DecidableEq, Repr

namespace Token

/-- Offset of the token's first byte. -/
def start (t : Token) : Nat := t.place.offset

/-- Offset behind the token's last byte. -/
def stop (t : Token) : Nat := t.place.offset + byteLength t.lexeme.toList

/-- Whether the token is this punctuation. -/
def isPunct (t : Token) (sign : String) : Bool := t.kind == .punct && t.lexeme == sign

/-- Whether the token is this word. -/
def isWord (t : Token) (word : String) : Bool := t.kind == .ident && t.lexeme == word

/-- The part of a token that survives reformatting. -/
def content (t : Token) : TokenKind × String := (t.kind, t.lexeme)

end Token

/-- Whether two runs hold the same tokens, wherever they stand. -/
def sameTokens (ours theirs : List Token) : Bool :=
  ours.map Token.content == theirs.map Token.content

/-- A half-open range of token positions. -/
structure Extent where
  first : Nat
  stop : Nat
deriving DecidableEq, Repr

/-- A text and the tokens read from it. -/
structure Source where
  text : List Char
  tokens : List Token
deriving DecidableEq, Repr

namespace Source

/-- The tokens in a range, as far as there are any. -/
def slice (s : Source) (e : Extent) : List Token := (s.tokens.drop e.first).take (e.stop - e.first)

/-- Characters of token `i`, none past the last token. -/
def lexemeAt (s : Source) (i : Nat) : String := (s.tokens[i]?.map Token.lexeme).getD ""

/-- Where token `i` starts; past the last token, the end of the text. -/
def startAt (s : Source) (i : Nat) : Nat := (s.tokens[i]?.map Token.start).getD (byteLength s.text)

/-- Bytes from the first to the last token of a range. A range without tokens has no bytes and stands
at the next token. Meant for ranges within the token list; see `byteRange?`. -/
def byteRange (s : Source) (e : Extent) : Nat × Nat :=
  if e.first < e.stop then
    (s.startAt e.first, (s.tokens[e.stop - 1]?.map Token.stop).getD (byteLength s.text))
  else (s.startAt e.first, s.startAt e.first)

/-- Bytes of a range of tokens. Fails when a token of a non-empty range is missing. -/
def byteRange? (s : Source) (e : Extent) : Option (Nat × Nat) :=
  if e.first < e.stop ∧ s.tokens.length < e.stop then none else some (s.byteRange e)

/-- Characters of a range of tokens with nothing in between. -/
def joined (s : Source) (e : Extent) : String := String.join ((s.slice e).map Token.lexeme)

/-- The text from one byte offset to another. -/
def textBetween? (s : Source) (start stop : Nat) : Option (List Char) := slice? s.text start stop

end Source

/-- Compares `n` tokens of two runs in order. Fails when a run ends before a difference shows. -/
def sameRun? : Nat → List Token → List Token → Option Bool
  | 0, _, _ => some true
  | n + 1, a :: as, b :: bs => if a.content = b.content then sameRun? n as bs else some false
  | _ + 1, [], _ => none
  | _ + 1, _ :: _, [] => none

/-- Whether a range of one source holds the same tokens as a range of another. Fails when the ranges
are equally long and a token is missing where they have not differed yet. -/
def Source.sameTokens? (s : Source) (e : Extent) (t : Source) (f : Extent) : Option Bool :=
  if e.stop - e.first = f.stop - f.first then
    sameRun? (e.stop - e.first) (s.tokens.drop e.first) (t.tokens.drop f.first)
  else some false

end ModWeave
