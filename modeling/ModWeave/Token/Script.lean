import ModWeave.Text.Letters
import ModWeave.Token.Basic
import ModWeave.Token.Error

/-! Tokens of a script. Blanks and comments part tokens and are none themselves. -/
namespace ModWeave.Script

open Text

/-- What the reader stands in between two tokens. -/
inductive Gap where
  | blanks
  | lineComment
  /-- A comment opened at this place. -/
  | blockComment (opened : Place)

/-- Passes blanks and comments. Gives the place and the text of the next token. -/
def skipGap : Gap → Place → List Char → Except ParseError (Place × List Char)
  | .blanks, p, '/' :: '/' :: rest => skipGap .lineComment (p.advance ['/', '/']) rest
  | .blanks, p, '/' :: '*' :: rest => skipGap (.blockComment p) (p.advance ['/', '*']) rest
  | .blanks, p, c :: rest =>
    if isBlank c then skipGap .blanks (p.after c) rest else .ok (p, c :: rest)
  | .blanks, p, [] => .ok (p, [])
  | .lineComment, p, c :: rest =>
    skipGap (if c = '\n' then .blanks else .lineComment) (p.after c) rest
  | .lineComment, p, [] => .ok (p, [])
  | .blockComment _, p, '*' :: '/' :: rest => skipGap .blanks (p.advance ['*', '/']) rest
  | .blockComment o, p, c :: rest => skipGap (.blockComment o) (p.after c) rest
  | .blockComment o, _, [] => .error (.unterminatedComment o)

theorem skipGap_length {g : Gap} {p q : Place} {cs rest : List Char}
    (h : skipGap g p cs = .ok (q, rest)) : rest.length ≤ cs.length := by
  fun_induction skipGap g p cs with
  | case1 _ _ ih | case2 _ _ ih | case8 _ _ _ ih =>
    have := ih h
    simp only [List.length_cons]
    omega
  | case3 _ _ _ _ _ _ ih | case6 _ _ _ ih | case9 _ _ _ _ _ ih =>
    have := ih h
    simp only [List.length_cons]
    omega
  | case4 | case5 | case7 => simp_all
  | case10 => simp at h

def isIdentStart (c : Char) : Bool := c == '_' || isAlphabetic c

def isIdentRest (c : Char) : Bool := c == '_' || isAlphanumeric c

/-- The body of a string behind its opening quote, closing quote included. A backslash keeps the
character behind it from closing the string. -/
def stringBody : List Char → Option (List Char × List Char)
  | '"' :: rest => some (['"'], rest)
  | '\\' :: c :: rest => (stringBody rest).map fun (body, after) => ('\\' :: c :: body, after)
  | c :: rest => (stringBody rest).map fun (body, after) => (c :: body, after)
  | [] => none

/-- Whether a number goes on with `c`: letters, digits and `_`, a point before a digit, and a sign
behind an exponent mark. -/
def continuesNumber (previous c : Char) (rest : List Char) : Bool :=
  c.isAlphanum || c == '_' || (c == '.' && (rest.head?.any Char.isDigit)) ||
    ((c == '+' || c == '-') && (previous == 'e' || previous == 'E'))

/-- The longest number at the front. -/
def numberRun : Char → List Char → List Char × List Char
  | _, [] => ([], [])
  | previous, c :: rest =>
    if continuesNumber previous c rest then
      let (run, after) := numberRun c rest
      (c :: run, after)
    else ([], c :: rest)

/-- Punctuation of two characters; it wins over the same characters one by one. -/
def isPair (c d : Char) : Bool :=
  [(':', ':'), ('&', '&'), ('|', '|'), ('=', '='), ('!', '='), ('<', '='), ('>', '=')].contains (c, d)

/-- Punctuation of one character. -/
def isSign (c : Char) : Bool := "()\x7b\x7d[];,=.!~?:+-*/%&|<>^".toList.contains c

/-- Splits the token off a text that starts with `c`, at place `p`. -/
def readToken (p : Place) (c : Char) (rest : List Char) :
    Except ParseError (TokenKind × List Char × List Char) :=
  if c = '"' then
    match stringBody rest with
    | some (body, after) => .ok (.str, c :: body, after)
    | none => .error (.unterminatedString p)
  else if c.isDigit || (c == '.' && rest.head?.any Char.isDigit) then
    let (run, after) := numberRun c rest
    .ok (.number, c :: run, after)
  else if c = '$' then
    let name := rest.takeWhile isIdentRest
    if name.isEmpty then .error (.unexpectedChar c p)
    else .ok (.macroName, c :: name, rest.dropWhile isIdentRest)
  else if isIdentStart c then
    .ok (.ident, c :: rest.takeWhile isIdentRest, rest.dropWhile isIdentRest)
  else if rest.head?.any (isPair c) then
    .ok (.punct, c :: rest.take 1, rest.drop 1)
  else if isSign c then .ok (.punct, [c], rest)
  else .error (.unexpectedChar c p)

theorem stringBody_append {cs body after : List Char} (h : stringBody cs = some (body, after)) :
    body ++ after = cs := by
  fun_induction stringBody cs generalizing body after with
  | case1 rest =>
    simp only [Option.some.injEq, Prod.mk.injEq] at h
    obtain ⟨rfl, rfl⟩ := h
    rfl
  | case2 c rest ih | case3 c rest _ _ ih =>
    obtain ⟨⟨b, a⟩, hb, he⟩ := Option.map_eq_some_iff.mp h
    obtain ⟨rfl, rfl⟩ := Prod.mk.inj he
    simp [ih hb]
  | case4 => simp at h

theorem numberRun_append (previous : Char) (cs : List Char) :
    (numberRun previous cs).1 ++ (numberRun previous cs).2 = cs := by
  induction cs generalizing previous with
  | nil => rfl
  | cons c rest ih => unfold numberRun; split <;> simp [ih]

/-- A token is a piece cut off the front of the text. -/
theorem readToken_append {p : Place} {c : Char} {rest lexeme after : List Char} {kind : TokenKind}
    (h : readToken p c rest = .ok (kind, lexeme, after)) :
    ∃ tail, lexeme = c :: tail ∧ tail ++ after = rest := by
  unfold readToken at h
  split at h
  · split at h
    · rename_i hb
      simp only [Except.ok.injEq, Prod.mk.injEq] at h
      obtain ⟨-, rfl, rfl⟩ := h
      exact ⟨_, rfl, stringBody_append hb⟩
    · simp at h
  split at h
  · simp only [Except.ok.injEq, Prod.mk.injEq] at h
    obtain ⟨-, rfl, rfl⟩ := h
    exact ⟨_, rfl, numberRun_append c rest⟩
  split at h
  · simp only at h
    split at h
    · simp at h
    · simp only [Except.ok.injEq, Prod.mk.injEq] at h
      obtain ⟨-, rfl, rfl⟩ := h
      exact ⟨_, rfl, List.takeWhile_append_dropWhile⟩
  split at h
  · simp only [Except.ok.injEq, Prod.mk.injEq] at h
    obtain ⟨-, rfl, rfl⟩ := h
    exact ⟨_, rfl, List.takeWhile_append_dropWhile⟩
  split at h
  · simp only [Except.ok.injEq, Prod.mk.injEq] at h
    obtain ⟨-, rfl, rfl⟩ := h
    exact ⟨_, rfl, List.take_append_drop 1 rest⟩
  split at h
  · simp only [Except.ok.injEq, Prod.mk.injEq] at h
    obtain ⟨-, rfl, rfl⟩ := h
    exact ⟨_, rfl, by simp⟩
  · simp at h

/-- The tokens from a place on. -/
def tokensFrom (p : Place) (cs : List Char) : Except ParseError (List Token) :=
  match _hg : skipGap .blanks p cs with
  | .error e => .error e
  | .ok (_, []) => .ok []
  | .ok (q, c :: rest) =>
    match _ht : readToken q c rest with
    | .error e => .error e
    | .ok (kind, lexeme, after) =>
      (tokensFrom (q.advance lexeme) after).map (⟨kind, String.ofList lexeme, q⟩ :: ·)
termination_by cs.length
decreasing_by
  obtain ⟨tail, -, rfl⟩ := readToken_append _ht
  have := skipGap_length _hg
  simp at this
  omega

/-- The tokens of a script. -/
def source (text : List Char) : Except ParseError Source :=
  (tokensFrom .origin text).map (⟨text, ·⟩)

end ModWeave.Script
