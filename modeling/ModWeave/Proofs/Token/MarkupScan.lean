import ModWeave.Proofs.Token.Cursor
import ModWeave.Proofs.Token.Markup

/-! A reader of markup documents that keeps its place in bytes. It comes to the tokens of the text for every text. -/
namespace ModWeave.Markup

open Text

/-- A piece by its bytes: the kind of its token and where the token ends, the cursor behind the piece, and whether that
is inside a tag. -/
structure Cut where
  token : Option (TokenKind × Nat)
  next : Cursor
  inTag : Bool

/-- The token of a piece that starts at a cursor. -/
def Cut.marks (cut : Cut) (k : Cursor) (p : Place) : List Mark :=
  cut.token.toList.map fun token => ⟨token.1, k.pos, token.2, p.line, p.column⟩

section Reader

variable (text : List Char)

/-- The cursor behind the next quote. There is none if the text runs out first. -/
def quotedEnd (quote : Char) : Nat → Cursor → Scan (Option Cursor)
  | 0, _ => none
  | n + 1, k => do
    match ← k.bump text with
    | (some c, k) => if c = quote then return some k else quotedEnd quote n k
    | (none, _) => return none

/-- Where character data ends, which has come to `stop`, and the cursor behind the blanks at its end. -/
def textEnd : Nat → Nat → Cursor → Scan (Nat × Cursor)
  | 0, _, _ => none
  | n + 1, stop, k => do
    match ← k.peek text with
    | some c =>
      if c = '<' then return (stop, k)
      else
        let k := (← k.bump text).2
        textEnd n (if isBlank c then stop else k.pos) k
    | none => return (stop, k)

/-- The piece up to the next `mark`. -/
def cutPast (mark : String) (kind : Option TokenKind) (e : ParseError) (n : Nat) (k : Cursor) : Scan Cut := do
  match ← Cursor.skipPast text mark.toList n k with
  | some k => return ⟨kind.map (·, k.pos), k, false⟩
  | none => throw e

/-- The piece at a place between tags. -/
def cutContent (n : Nat) (k : Cursor) (p : Place) : Scan Cut := do
  let rest ← k.ahead text
  if "<!--".toList.isPrefixOf rest then cutPast text "-->" none (.unterminatedComment p) n k
  else if "<![CDATA[".toList.isPrefixOf rest then
    cutPast text "]]>" (some .text) (.unterminatedString p) n k
  else if "<?".toList.isPrefixOf rest then cutPast text "?>" none (.unexpectedEnd (.delimiter "?>")) n k
  else if "<!".toList.isPrefixOf rest then cutPast text ">" none (.unexpectedEnd (.delimiter ">")) n k
  else if "<".toList.isPrefixOf rest then
    let k := k.skip (if "</".toList.isPrefixOf rest then 2 else 1)
    return ⟨some (.punct, k.pos), k, true⟩
  else
    let (stop, k) ← textEnd text n k.pos k
    return ⟨some (.text, stop), k, false⟩

/-- The piece at a place inside a tag, which starts with `c`. -/
def cutTag (n : Nat) (k : Cursor) (p : Place) (c : Char) : Scan Cut := do
  let sign (bytes : Nat) (inTag : Bool) : Cut := ⟨some (.punct, k.pos + bytes), k.skip bytes, inTag⟩
  if c = '>' then return sign 1 false
  else if c = '/' && byteAt text (k.pos + 1) = some '>'.toUInt8 then return sign 2 false
  else if c = '=' then return sign 1 true
  else if c = '"' || c = '\'' then
    match ← quotedEnd text c n (← k.bump text).2 with
    | some k => return ⟨some (.str, k.pos), k, true⟩
    | none => throw (.unterminatedString p)
  else if isNameStart c then
    let k ← Cursor.eatWhile text isNameRest n k
    return ⟨some (.ident, k.pos), k, true⟩
  else throw (.unexpectedChar c p)

/-- The tokens up to the end of a tag, put behind those before them. -/
def tagFrom : Nat → List Mark → Cursor → Scan (List Mark × Cursor)
  | 0, _, _ => none
  | n + 1, marks, k => do
    let k ← Cursor.eatWhile text isBlank (n + 1) k
    let p ← k.place text
    match ← k.peek text with
    | some c =>
      let cut ← cutTag text (n + 1) k p c
      let marks := marks ++ cut.marks k p
      if cut.inTag then tagFrom n marks cut.next else return (marks, cut.next)
    | none => throw (.unexpectedEnd (.delimiter ">"))

def scanFrom : Nat → List Mark → Cursor → Scan (List Mark)
  | 0, _, _ => none
  | n + 1, marks, k => do
    let k ← Cursor.eatWhile text isBlank (n + 1) k
    if byteLength text ≤ k.pos then return marks
    else
      let p ← k.place text
      let cut ← cutContent text (n + 1) k p
      let marks := marks ++ cut.marks k p
      if cut.inTag then
        let (marks, k) ← tagFrom text n marks cut.next
        scanFrom n marks k
      else scanFrom n marks cut.next

/-- The tokens of a markup document, by their bytes. -/
def scan : Scan (List Mark) := scanFrom text (text.length + 1) [] .start

end Reader

section Pieces

variable {text rest : List Char} {k : Cursor} {p : Place} {c : Char} {n : Nat}

/-- A piece is shown by its bytes. The cursor may have passed blanks behind it. -/
structure Cut.Shows (text : List Char) (p : Place) (cut : Cut) (piece : Piece) : Prop where
  token : cut.token = piece.kind.map (·, p.offset + byteLength piece.chars)
  inTag : cut.inTag = piece.inTag
  next : ∃ blanks more, (∀ b ∈ blanks, isBlank b = true) ∧ piece.rest = blanks ++ more ∧
    cut.next.At text ((p.advance piece.chars).advance blanks) more

/-- A piece is shown by the cursor right behind it. -/
theorem Cut.shows (kind : Option TokenKind) {chars after : List Char} {inTag : Bool}
    (h : k.At text (p.advance chars) after) :
    Cut.Shows text p ⟨kind.map (·, k.pos), k, inTag⟩ ⟨kind, chars, after, inTag⟩ where
  token := by rw [h.offset, Place.advance_offset]
  inTag := rfl
  next := ⟨[], after, by simp, rfl, h⟩

theorem Cut.shows_token {kind : TokenKind} {chars after : List Char} {inTag : Bool}
    (h : k.At text (p.advance chars) after) :
    Cut.Shows text p ⟨some (kind, k.pos), k, inTag⟩ ⟨some kind, chars, after, inTag⟩ :=
  Cut.shows (some kind) h

theorem quotedEnd_eq (quote : Char) (h : k.At text p rest) (hn : rest.length < n) :
    (splitPast [quote] rest = none ∧ quotedEnd text quote n k = pure none) ∨
    ∃ run after k', splitPast [quote] rest = some (run, after) ∧ quotedEnd text quote n k = pure (some k') ∧
      k'.At text (p.advance run) after := by
  induction n generalizing k p rest with
  | zero => exact absurd hn (Nat.not_lt_zero _)
  | succ n ih =>
    rw [quotedEnd]
    cases rest with
    | nil =>
      rw [h.bump_nil, pure_bind]
      exact .inl ⟨rfl, rfl⟩
    | cons c rest =>
      rw [h.bump, pure_bind, splitPast]
      by_cases hc : c = quote
      · subst hc
        rw [if_pos (by simp)]
        exact .inr ⟨[c], rest, k.past c, rfl, if_pos rfl, h.past⟩
      · rw [if_neg (by simpa using Ne.symm hc)]
        dsimp only
        rw [if_neg hc]
        obtain ⟨hnone, hk⟩ | ⟨run, after, k', hsome, hk, hat⟩ := ih h.past (Nat.lt_of_succ_lt_succ hn)
        · exact .inl ⟨by rw [hnone]; rfl, hk⟩
        · exact .inr ⟨c :: run, after, k', by rw [hsome]; rfl, hk, hat⟩

theorem trimEnd_cons (c : Char) (cs : List Char) :
    trimEnd (c :: cs) = if isBlank c && (trimEnd cs).isEmpty then [] else c :: trimEnd cs := by
  rw [trimEnd, List.reverse_cons, List.dropWhile_append]
  have hempty : (cs.reverse.dropWhile isBlank).isEmpty = (trimEnd cs).isEmpty := by rw [trimEnd, List.isEmpty_reverse]
  rw [hempty]
  cases hcs : (trimEnd cs).isEmpty with
  | false =>
    rw [Bool.and_false, if_neg Bool.false_ne_true, if_neg Bool.false_ne_true, List.reverse_append]
    rfl
  | true =>
    rw [List.isEmpty_iff.mp hcs, if_pos rfl, Bool.and_true]
    by_cases hc : isBlank c = true
    · rw [if_pos hc, List.dropWhile_cons_of_pos hc]
      rfl
    · rw [if_neg hc, List.dropWhile_cons_of_neg hc]
      rfl

private theorem text_cons (hc : c ≠ '<') (rest : List Char) :
    (c :: rest).takeWhile (· != '<') = c :: rest.takeWhile (· != '<') ∧
      (c :: rest).dropWhile (· != '<') = rest.dropWhile (· != '<') := by
  have hpos : (c != '<') = true := by simpa using hc
  exact ⟨List.takeWhile_cons_of_pos hpos, List.dropWhile_cons_of_pos hpos⟩

/-- Character data ends at its last character that is no blank, if there is one. -/
theorem textEnd_eq (h : k.At text p rest) (hn : rest.length < n) (stop : Nat) :
    ∃ k', textEnd text n stop k = pure (if (trimEnd (rest.takeWhile (· != '<'))).isEmpty then stop
        else k.pos + byteLength (trimEnd (rest.takeWhile (· != '<'))), k') ∧
      k'.At text (p.advance (rest.takeWhile (· != '<'))) (rest.dropWhile (· != '<')) := by
  induction n generalizing k p rest stop with
  | zero => exact absurd hn (Nat.not_lt_zero _)
  | succ n ih =>
    rw [textEnd, h.peek, pure_bind]
    cases rest with
    | nil => exact ⟨k, rfl, h⟩
    | cons c rest =>
      rw [List.head?_cons]
      dsimp only
      by_cases hc : c = '<'
      · subst hc
        exact ⟨k, rfl, h⟩
      · obtain ⟨htake, hdrop⟩ := text_cons hc rest
        obtain ⟨k', hk, hat⟩ := ih h.past (Nat.lt_of_succ_lt_succ hn) (if isBlank c then stop else (k.past c).pos)
        refine ⟨k', ?_, ?_⟩
        · rw [if_neg hc, h.bump, pure_bind]
          dsimp only
          rw [hk, htake, trimEnd_cons]
          have hpast : (k.past c).pos = k.pos + c.utf8Size := by
            rw [Cursor.past]
            split <;> rfl
          cases hrun : (trimEnd (rest.takeWhile (· != '<'))).isEmpty with
          | true =>
            cases hb : isBlank c with
            | true => rfl
            | false => simp [List.isEmpty_iff.mp hrun, hpast]
          | false =>
            rw [Bool.and_false]
            simp [hpast, Nat.add_assoc]
        · rw [htake, hdrop]
          exact hat

/-- A piece up to a mark is the one that is read, unless it starts with the mark. -/
theorem cutPast_yields {mark : String} (h : k.At text p (c :: rest)) (hn : (c :: rest).length < n)
    (hne : mark.toList ≠ []) (hline : '\n' ∉ mark.toList) (hc : mark.toList.head? ≠ some c)
    (kind : Option TokenKind) (e : ParseError) :
    Yields (Cut.Shows text p) (cutPast text mark kind e n k) (pieceTo mark kind e c rest) := by
  have hnot : ¬ mark.toList.isPrefixOf (c :: rest) = true := by
    intro hprefix
    obtain ⟨d, cs, hmark⟩ := List.exists_cons_of_ne_nil hne
    rw [hmark, List.isPrefixOf_iff_prefix, List.cons_prefix_cons] at hprefix
    rw [hmark, List.head?_cons, hprefix.1] at hc
    exact hc rfl
  unfold cutPast pieceTo
  obtain ⟨hnone, hk⟩ | ⟨run, after, k', hsome, hk, hat⟩ := h.skipPast hn hne hline
  · rw [splitPast, if_neg hnot, Option.map_eq_none_iff] at hnone
    rw [hk, pure_bind, hnone]
    exact .fault e
  · rw [splitPast, if_neg hnot] at hsome
    obtain ⟨⟨run, after⟩, hsplit, heq⟩ := Option.map_eq_some_iff.mp hsome
    cases heq
    rw [hk, pure_bind, hsplit]
    exact .result (Cut.shows kind hat)

private theorem isPrefixOf_singleton (c : Char) (cs : List Char) : [c].isPrefixOf cs = (cs.head? == some c) := by
  cases cs with
  | nil => rfl
  | cons d cs => exact (Bool.and_true (c == d)).trans BEq.comm

private theorem cutText_yields (h : k.At text p (c :: rest)) (hn : (c :: rest).length < n) (hb : isBlank c = false)
    (hc : c ≠ '<') : Yields (Cut.Shows text p) (cutContent text n k p) (readContent p c rest) := by
  have hopen (mark : String) (hmark : mark.toList.head? = some '<') : ¬ mark.toList.isPrefixOf (c :: rest) = true := by
    obtain ⟨cs, hcs⟩ := List.head?_eq_some_iff.mp hmark
    rw [hcs, List.isPrefixOf_iff_prefix, List.cons_prefix_cons]
    exact fun h => hc h.1.symm
  have hpos : (c != '<') = true := by simpa using hc
  obtain ⟨htake, hdrop⟩ := text_cons hc rest
  obtain ⟨k', hk, hat⟩ := textEnd_eq h hn k.pos
  obtain ⟨blanks, hrun, hblanks⟩ := trimEnd_blanks (rest.takeWhile (· != '<'))
  have hsplit : rest = trimEnd (rest.takeWhile (· != '<')) ++ (blanks ++ rest.dropWhile (· != '<')) := by
    rw [← List.append_assoc, ← hrun, List.takeWhile_append_dropWhile]
  rw [htake, hdrop] at hat
  rw [htake, trimEnd_cons, hb, Bool.false_and, if_neg Bool.false_ne_true] at hk
  rw [cutContent, h.ahead, pure_bind, readContent, if_pos hpos, if_neg (hopen "<!--" rfl),
    if_neg (hopen "<![CDATA[" rfl), if_neg (hopen "<?" rfl), if_neg (hopen "<!" rfl), if_neg (hopen "<" rfl), hk,
    pure_bind]
  refine .result ⟨?_, rfl, blanks, rest.dropWhile (· != '<'), hblanks, ?_, ?_⟩
  · rw [← h.offset]
    rfl
  · exact (congrArg (List.drop _) hsplit).trans List.drop_left
  · rw [← Place.advance_append, List.cons_append, ← hrun]
    exact hat

/-- Between tags a piece is cut off where it is read. -/
theorem cutContent_yields (h : k.At text p (c :: rest)) (hn : (c :: rest).length < n) (hb : isBlank c = false) :
    Yields (Cut.Shows text p) (cutContent text n k p) (readContent p c rest) := by
  by_cases hc : c = '<'
  · subst hc
    have hcomment : "<!--".toList.isPrefixOf ('<' :: rest) = "!--".toList.isPrefixOf rest := rfl
    have hdata : "<![CDATA[".toList.isPrefixOf ('<' :: rest) = "![CDATA[".toList.isPrefixOf rest := rfl
    have hmark (d : Char) : ['<', d].isPrefixOf ('<' :: rest) = (rest.head? == some d) := isPrefixOf_singleton d rest
    have hinstruction : "<?".toList.isPrefixOf ('<' :: rest) = (rest.head? == some '?') := hmark '?'
    have hdeclaration : "<!".toList.isPrefixOf ('<' :: rest) = (rest.head? == some '!') := hmark '!'
    have hend : "</".toList.isPrefixOf ('<' :: rest) = (rest.head? == some '/') := hmark '/'
    have hlt : ¬ ('<' != '<') = true := by decide
    rw [cutContent, h.ahead, pure_bind, readContent, if_neg hlt, hcomment, hdata, hinstruction, hdeclaration, hend]
    split
    · exact cutPast_yields h hn (by decide) (by decide) (by decide) _ _
    split
    · exact cutPast_yields h hn (by decide) (by decide) (by decide) _ _
    split
    · exact cutPast_yields h hn (by decide) (by decide) (by decide) _ _
    split
    · exact cutPast_yields h hn (by decide) (by decide) (by decide) _ _
    rw [if_pos (show "<".toList.isPrefixOf ('<' :: rest) = true from rfl)]
    by_cases hslash : (rest.head? == some '/') = true
    · obtain ⟨rest, rfl⟩ := List.head?_eq_some_iff.mp (beq_iff_eq.mp hslash)
      rw [if_pos hslash, if_pos hslash]
      exact .result (Cut.shows_token (h.skip ['<', '/'] (by decide)))
    · rw [if_neg hslash, if_neg hslash]
      exact .result (Cut.shows_token (h.skip ['<'] (by decide)))
  · exact cutText_yields h hn hb hc

private theorem isNameRest_of_isNameStart (hc : isNameStart c = true) : isNameRest c = true := by
  rw [isNameRest, hc]
  rfl

/-- Inside a tag a piece is cut off where it is read. -/
theorem cutTag_yields (h : k.At text p (c :: rest)) (hn : (c :: rest).length < n) :
    Yields (Cut.Shows text p) (cutTag text n k p c) (readTag p c rest) := by
  unfold cutTag readTag
  dsimp only
  by_cases hclose : c = '>'
  · subst hclose
    rw [if_pos rfl, if_pos rfl]
    exact .result (Cut.shows_token (h.skip ['>'] (by decide)))
  rw [if_neg hclose, if_neg hclose]
  have hbyte : (c = '/' && byteAt text (k.pos + 1) = some '>'.toUInt8 : Bool) = (c = '/' && rest.head? == some '>') := by
    rw [Bool.eq_iff_iff, Bool.and_eq_true, Bool.and_eq_true, decide_eq_true_eq, decide_eq_true_eq, beq_iff_eq]
    refine and_congr_right fun hc => ?_
    subst hc
    rw [h.byteAt_succ rfl, map_leadByte_eq_iff (by decide)]
  rw [hbyte]
  by_cases hend : (c = '/' && rest.head? == some '>') = true
  · rw [if_pos hend, if_pos hend]
    rw [Bool.and_eq_true, decide_eq_true_eq, beq_iff_eq] at hend
    obtain ⟨rfl, hhead⟩ := hend
    obtain ⟨rest, rfl⟩ := List.head?_eq_some_iff.mp hhead
    exact .result (Cut.shows_token (h.skip ['/', '>'] (by decide)))
  rw [if_neg hend, if_neg hend]
  by_cases hequals : c = '='
  · subst hequals
    rw [if_pos rfl, if_pos rfl]
    exact .result (Cut.shows_token (h.skip ['='] (by decide)))
  rw [if_neg hequals, if_neg hequals]
  by_cases hquote : (c = '"' || c = '\'') = true
  · rw [if_pos hquote, if_pos hquote, h.bump, pure_bind]
    obtain ⟨hnone, hk⟩ | ⟨run, after, k', hsome, hk, hat⟩ := quotedEnd_eq c h.past (Nat.lt_of_succ_lt hn)
    · rw [hnone, hk, pure_bind]
      exact .fault _
    · rw [hsome, hk, pure_bind]
      exact .result (Cut.shows_token hat)
  rw [if_neg hquote, if_neg hquote]
  by_cases hname : isNameStart c = true
  · obtain ⟨k', hk, hat⟩ := h.eatWhile hn isNameRest
    rw [List.takeWhile_cons_of_pos (isNameRest_of_isNameStart hname),
      List.dropWhile_cons_of_pos (isNameRest_of_isNameStart hname)] at hat
    rw [if_pos hname, if_pos hname, hk, pure_bind]
    exact .result (Cut.shows_token hat)
  · rw [if_neg hname, if_neg hname]
    exact .fault _

end Pieces

section Reading

variable {text rest : List Char} {k : Cursor} {p : Place} {n m : Nat} {inTag : Bool}

/-- Blanks are passed wherever they stand. -/
theorem tokensFrom_blanks {blanks : List Char} (hb : ∀ b ∈ blanks, isBlank b = true) (inTag : Bool) (p : Place)
    (cs : List Char) : tokensFrom inTag p (blanks ++ cs) = tokensFrom inTag (p.advance blanks) cs := by
  have hdrop : (blanks ++ cs).dropWhile isBlank = cs.dropWhile isBlank := List.dropWhile_append_of_pos hb
  have hplace : pastBlanks p (blanks ++ cs) = pastBlanks (p.advance blanks) cs := by
    rw [pastBlanks, List.takeWhile_append_of_pos hb, Place.advance_append]
  cases h : cs.dropWhile isBlank with
  | nil => rw [tokensFrom_of_blanks h, tokensFrom_of_blanks (hdrop.trans h)]
  | cons c rest =>
    cases hr : readPiece inTag (pastBlanks (p.advance blanks) cs) c rest with
    | error e => rw [tokensFrom_of_fault h hr, tokensFrom_of_fault (hdrop.trans h) (hplace ▸ hr)]
    | ok piece => rw [tokensFrom_of_piece h hr, tokensFrom_of_piece (hdrop.trans h) (hplace ▸ hr), hplace]

/-- The reader goes on from a cursor, inside a tag or not. -/
def resume (text : List Char) (n m : Nat) (inTag : Bool) (marks : List Mark) (k : Cursor) : Scan (List Mark) :=
  if inTag then do
    let (marks, k) ← tagFrom text n marks k
    scanFrom text m marks k
  else scanFrom text m marks k

theorem Cut.Shows.marks {cut : Cut} {piece : Piece} (h : cut.Shows text p piece) (hk : k.At text p rest) :
    cut.marks k p = (piece.tokens p).map Token.mark := by
  rw [Cut.marks, Piece.tokens, h.token, hk.offset]
  cases piece.kind with
  | none => rfl
  | some kind => exact congrArg (fun mark => [mark]) (Token.mark_ofList kind piece.chars p).symm

/-- Wherever `rest` is left, its tokens come one behind the other, each with its bytes and the place where it
starts. -/
def Resumes (text rest : List Char) : Prop :=
  ∀ {k : Cursor} {p : Place} {n m : Nat}, k.At text p rest → rest.length < n → rest.length < m →
    ∀ (inTag : Bool) (marks : List Mark), (resume text n m inTag marks k).run =
      some ((tokensFrom inTag p rest).map fun ts => marks ++ ts.map Token.mark)

section Shorter

variable (ih : ∀ left : List Char, left.length < rest.length → Resumes text left)

include ih

/-- What a piece leaves is resumed behind it. -/
private theorem resume_step (inTag : Bool) (marks : List Mark) {c : Char} {more : List Char} {k' : Cursor}
    {cut : Cut} {piece : Piece} (hrest : rest.dropWhile isBlank = c :: more)
    (hat : k'.At text (pastBlanks p rest) (c :: more))
    (hread : readPiece inTag (pastBlanks p rest) c more = .ok piece)
    (hshows : cut.Shows text (pastBlanks p rest) piece) (hn : rest.length ≤ n) (hm : rest.length ≤ m) :
    (resume text n m cut.inTag (marks ++ cut.marks k' (pastBlanks p rest)) cut.next).run =
      some ((tokensFrom inTag p rest).map fun ts => marks ++ ts.map Token.mark) := by
  obtain ⟨blanks, left, hblanks, hpiece, hnext⟩ := hshows.next
  have hleft : left.length < rest.length := by
    obtain ⟨tail, -, happend⟩ := readPiece_append hread
    have hlength := congrArg List.length happend
    have hsuffix := (List.dropWhile_suffix isBlank (l := rest)).length_le
    rw [hpiece, List.length_append, List.length_append] at hlength
    rw [hrest, List.length_cons] at hsuffix
    omega
  rw [hshows.marks hat, hshows.inTag, ih _ hleft hnext (by omega) (by omega),
    tokensFrom_of_piece hrest hread, hpiece, tokensFrom_blanks hblanks]
  cases tokensFrom piece.inTag (((pastBlanks p rest).advance piece.chars).advance blanks) left with
  | error e => rfl
  | ok ts => simp [Except.map]

private theorem resume_inTag (h : k.At text p rest) (hn : rest.length < n + 1) (hm : rest.length < m)
    (marks : List Mark) : (resume text (n + 1) m true marks k).run =
      some ((tokensFrom true p rest).map fun ts => marks ++ ts.map Token.mark) := by
  have hlength := (List.dropWhile_suffix isBlank (l := rest)).length_le
  obtain ⟨k', hk, hat⟩ := h.eatWhile hn isBlank
  rw [resume, if_pos rfl, tagFrom]
  simp only [hk, pure_bind, hat.place, hat.peek]
  cases hrest : rest.dropWhile isBlank with
  | nil =>
    rw [tokensFrom_of_blanks hrest]
    rfl
  | cons c more =>
    rw [hrest] at hat hlength
    have hcut := cutTag_yields hat (Nat.lt_of_le_of_lt hlength hn)
    simp only [List.head?_cons]
    generalize cutTag text (n + 1) k' (pastBlanks p rest) c = x at hcut ⊢
    generalize hread : readTag (pastBlanks p rest) c more = y at hcut
    cases hcut with
    | fault e =>
      have hpiece : readPiece true (pastBlanks p rest) c more = .error e := hread
      rw [tokensFrom_of_fault hrest hpiece]
      rfl
    | @result cut piece hshows =>
      have hstep := resume_step ih true marks hrest hat hread hshows
        (Nat.le_of_lt_succ hn) (Nat.le_of_lt hm)
      rw [← hstep, resume, pure_bind]
      cases cut.inTag <;> rfl

private theorem resume_inContent (h : k.At text p rest) (hm : rest.length < m + 1) (marks : List Mark) :
    (resume text n (m + 1) false marks k).run =
      some ((tokensFrom false p rest).map fun ts => marks ++ ts.map Token.mark) := by
  have hlength := (List.dropWhile_suffix isBlank (l := rest)).length_le
  obtain ⟨k', hk, hat⟩ := h.eatWhile hm isBlank
  rw [resume, if_neg Bool.false_ne_true, scanFrom]
  simp only [hk, pure_bind]
  cases hrest : rest.dropWhile isBlank with
  | nil =>
    rw [tokensFrom_of_blanks hrest, if_pos (hat.byteLength_le_iff.mpr hrest)]
    exact congrArg (some ∘ Except.ok) (List.append_nil marks).symm
  | cons c more =>
    have hblank : isBlank c = false := by
      have hhead := List.head?_dropWhile_not isBlank rest
      rw [hrest] at hhead
      simpa using hhead
    rw [if_neg (mt hat.byteLength_le_iff.mp (by simp [hrest]))]
    rw [hrest] at hat hlength
    have hcut := cutContent_yields hat (Nat.lt_of_le_of_lt hlength hm) hblank
    rw [hat.place, pure_bind]
    generalize cutContent text (m + 1) k' (pastBlanks p rest) = x at hcut ⊢
    generalize hread : readContent (pastBlanks p rest) c more = y at hcut
    cases hcut with
    | fault e =>
      have hpiece : readPiece false (pastBlanks p rest) c more = .error e := hread
      rw [tokensFrom_of_fault hrest hpiece]
      rfl
    | @result cut piece hshows =>
      have hstep := resume_step ih false marks hrest hat hread hshows
        (Nat.le_of_lt_succ hm) (Nat.le_of_lt_succ hm)
      rw [← hstep, resume, pure_bind]

end Shorter

theorem resumes (text rest : List Char) : Resumes text rest := by
  induction hlen : rest.length using Nat.strongRecOn generalizing rest with
  | ind len ih =>
    subst hlen
    replace ih (left : List Char) (hlt : left.length < rest.length) : Resumes text left := ih _ hlt left rfl
    intro k p n m h hn hm inTag marks
    obtain ⟨n, rfl⟩ : ∃ i, n = i + 1 := ⟨n - 1, by omega⟩
    obtain ⟨m, rfl⟩ : ∃ i, m = i + 1 := ⟨m - 1, by omega⟩
    cases inTag with
    | true => exact resume_inTag ih h hn hm marks
    | false => exact resume_inContent ih h hm marks

/-- **Scanning a document comes to its tokens**, or to its fault: no slice is ever taken that is not there. -/
theorem scan_eq (text : List Char) :
    (scan text).run = some ((source text).map fun s => s.tokens.map Token.mark) := by
  have hresume := resumes text text (.start text) text.length.lt_succ_self text.length.lt_succ_self false []
  rw [resume, if_neg Bool.false_ne_true] at hresume
  rw [scan, hresume, source]
  cases tokensFrom false .origin text <;> rfl

end Reading

end ModWeave.Markup
