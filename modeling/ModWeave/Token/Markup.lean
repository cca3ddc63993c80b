import ModWeave.Text.Letters
import ModWeave.Token.Basic
import ModWeave.Token.Error

/-! Tokens of a markup document. Comments, instructions, declarations and blanks are none. -/
namespace ModWeave.Markup

open Text

def isNameStart (c : Char) : Bool := c == '_' || c == ':' || isAlphabetic c

def isNameRest (c : Char) : Bool := isNameStart c || c == '-' || c == '.' || isAlphanumeric c

/-- Splits the text behind the first occurrence of `mark`, which must not be empty. -/
def splitPast (mark : List Char) : List Char → Option (List Char × List Char)
  | [] => none
  | c :: rest =>
    if mark.isPrefixOf (c :: rest) then some (mark, (c :: rest).drop mark.length)
    else (splitPast mark rest).map fun (run, after) => (c :: run, after)

/-- A text without the blanks at its end. -/
def trimEnd (cs : List Char) : List Char := (cs.reverse.dropWhile isBlank).reverse

/-- A piece of a document: a token, or something passed over when it has no kind. -/
structure Piece where
  kind : Option TokenKind
  chars : List Char
  rest : List Char
  /-- Whether the piece leaves the reader inside a tag. -/
  inTag : Bool

/-- The piece that starts with `c` and has to end in `mark`. -/
def pieceTo (mark : String) (kind : Option TokenKind) (e : ParseError) (c : Char)
    (rest : List Char) : Except ParseError Piece :=
  match splitPast mark.toList rest with
  | some (run, after) => .ok ⟨kind, c :: run, after, false⟩
  | none => .error e

/-- The piece between tags that starts with `c`, which is no blank. Character data runs to the next
`<`, blanks at its end left out. -/
def readContent (p : Place) (c : Char) (rest : List Char) : Except ParseError Piece :=
  if c != '<' then
    let run := trimEnd (rest.takeWhile (· != '<'))
    .ok ⟨some .text, c :: run, rest.drop run.length, false⟩
  else if "!--".toList.isPrefixOf rest then pieceTo "-->" none (.unterminatedComment p) c rest
  else if "![CDATA[".toList.isPrefixOf rest then
    pieceTo "]]>" (some .text) (.unterminatedString p) c rest
  else if rest.head? == some '?' then
    pieceTo "?>" none (.unexpectedEnd (.delimiter "?>")) c rest
  else if rest.head? == some '!' then
    pieceTo ">" none (.unexpectedEnd (.delimiter ">")) c rest
  else if rest.head? == some '/' then .ok ⟨some .punct, c :: rest.take 1, rest.drop 1, true⟩
  else .ok ⟨some .punct, [c], rest, true⟩

/-- The piece inside a tag that starts with `c`, which is no blank. Quoted values have no escapes. -/
def readTag (p : Place) (c : Char) (rest : List Char) : Except ParseError Piece :=
  if c = '>' then .ok ⟨some .punct, [c], rest, false⟩
  else if c = '/' && rest.head? == some '>' then
    .ok ⟨some .punct, c :: rest.take 1, rest.drop 1, false⟩
  else if c = '=' then .ok ⟨some .punct, [c], rest, true⟩
  else if c = '"' || c = '\'' then
    match splitPast [c] rest with
    | some (run, after) => .ok ⟨some .str, c :: run, after, true⟩
    | none => .error (.unterminatedString p)
  else if isNameStart c then
    .ok ⟨some .ident, c :: rest.takeWhile isNameRest, rest.dropWhile isNameRest, true⟩
  else .error (.unexpectedChar c p)

def readPiece (inTag : Bool) (p : Place) (c : Char) (rest : List Char) : Except ParseError Piece :=
  if inTag then readTag p c rest else readContent p c rest

theorem splitPast_append {mark cs run after : List Char} (h : splitPast mark cs = some (run, after)) :
    run ++ after = cs := by
  induction cs generalizing run after with
  | nil => simp [splitPast] at h
  | cons c rest ih =>
    unfold splitPast at h
    split at h
    · rename_i hp
      obtain ⟨t, ht⟩ := List.isPrefixOf_iff_prefix.mp hp
      simp only [Option.some.injEq, Prod.mk.injEq] at h
      obtain ⟨rfl, rfl⟩ := h
      rw [← ht]; simp
    · obtain ⟨⟨r, a⟩, hr, he⟩ := Option.map_eq_some_iff.mp h
      obtain ⟨rfl, rfl⟩ := Prod.mk.inj he
      simp [ih hr]

theorem trimEnd_isPrefix (cs : List Char) : trimEnd cs <+: cs := by
  have h := List.dropWhile_suffix isBlank (l := cs.reverse)
  simpa [trimEnd] using List.reverse_prefix.mpr h

private theorem pieceTo_append {mark : String} {kind : Option TokenKind} {e : ParseError} {c : Char}
    {rest : List Char} {piece : Piece} (h : pieceTo mark kind e c rest = .ok piece) :
    ∃ tail, piece.chars = c :: tail ∧ tail ++ piece.rest = rest := by
  unfold pieceTo at h
  split at h
  · rename_i hs
    obtain rfl := Except.ok.inj h
    exact ⟨_, rfl, splitPast_append hs⟩
  · simp at h

private theorem readContent_append {p : Place} {c : Char} {rest : List Char} {piece : Piece}
    (h : readContent p c rest = .ok piece) :
    ∃ tail, piece.chars = c :: tail ∧ tail ++ piece.rest = rest := by
  unfold readContent at h
  split at h
  · obtain rfl := Except.ok.inj h
    have hp := (trimEnd_isPrefix (rest.takeWhile (· != '<'))).trans (List.takeWhile_prefix _)
    exact ⟨_, rfl, List.prefix_iff_eq_append.mp hp⟩
  split at h
  · exact pieceTo_append h
  split at h
  · exact pieceTo_append h
  split at h
  · exact pieceTo_append h
  split at h
  · exact pieceTo_append h
  split at h
  · obtain rfl := Except.ok.inj h
    exact ⟨_, rfl, List.take_append_drop 1 rest⟩
  · obtain rfl := Except.ok.inj h
    exact ⟨[], rfl, rfl⟩

private theorem readTag_append {p : Place} {c : Char} {rest : List Char} {piece : Piece}
    (h : readTag p c rest = .ok piece) :
    ∃ tail, piece.chars = c :: tail ∧ tail ++ piece.rest = rest := by
  unfold readTag at h
  split at h
  · obtain rfl := Except.ok.inj h
    exact ⟨[], rfl, rfl⟩
  split at h
  · obtain rfl := Except.ok.inj h
    exact ⟨_, rfl, List.take_append_drop 1 rest⟩
  split at h
  · obtain rfl := Except.ok.inj h
    exact ⟨[], rfl, rfl⟩
  split at h
  · split at h
    · rename_i hs
      obtain rfl := Except.ok.inj h
      exact ⟨_, rfl, splitPast_append hs⟩
    · simp at h
  split at h
  · obtain rfl := Except.ok.inj h
    exact ⟨_, rfl, List.takeWhile_append_dropWhile⟩
  · simp at h

/-- A piece is cut off the front of the text and holds its first character. -/
theorem readPiece_append {inTag : Bool} {p : Place} {c : Char} {rest : List Char} {piece : Piece}
    (h : readPiece inTag p c rest = .ok piece) :
    ∃ tail, piece.chars = c :: tail ∧ tail ++ piece.rest = rest := by
  unfold readPiece at h
  split at h
  · exact readTag_append h
  · exact readContent_append h

/-- The tokens from a place on. -/
def tokensFrom (inTag : Bool) (p : Place) (cs : List Char) : Except ParseError (List Token) :=
  match _hb : cs.dropWhile isBlank with
  | [] => if inTag then .error (.unexpectedEnd (.delimiter ">")) else .ok []
  | c :: rest =>
    let q := p.advance (cs.takeWhile isBlank)
    match _hp : readPiece inTag q c rest with
    | .error e => .error e
    | .ok piece =>
      let more := tokensFrom piece.inTag (q.advance piece.chars) piece.rest
      match piece.kind with
      | some kind => more.map (⟨kind, String.ofList piece.chars, q⟩ :: ·)
      | none => more
termination_by cs.length
decreasing_by
  obtain ⟨tail, -, rfl⟩ := readPiece_append _hp
  have h := (List.dropWhile_suffix isBlank (l := cs)).length_le
  rw [_hb] at h
  simp at h
  omega

/-- The tokens of a markup document. -/
def source (text : List Char) : Except ParseError Source :=
  (tokensFrom false .origin text).map (⟨text, ·⟩)

end ModWeave.Markup
