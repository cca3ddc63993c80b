import ModWeave.Proofs.Token.Cursor
import ModWeave.Proofs.Token.Script

/-! A reader of scripts that keeps its place in bytes. It comes to the tokens of the text for every text. -/
namespace ModWeave.Script

open Text

section Reader

variable (text : List Char)

def skipTrivia : Nat → Cursor → Scan Cursor
  | 0, _ => none
  | n + 1, k => do
    let here := byteAt text k.pos
    let behind := byteAt text (k.pos + 1)
    if here.any isAsciiBlank then skipTrivia n (← k.bump text).2
    else if here = some '/'.toUInt8 ∧ behind = some '/'.toUInt8 then
      skipTrivia n (← Cursor.eatWhile text (· != '\n') (n + 1) k)
    else if here = some '/'.toUInt8 ∧ behind = some '*'.toUInt8 then
      let p ← k.place text
      match ← Cursor.skipPast text ['*', '/'] (n + 1) (k.skip 2) with
      | some k' => skipTrivia n k'
      | none => throw (.unterminatedComment p)
    else if here.isSome then
      if (← k.peek text).any isBlank then skipTrivia n (← k.bump text).2 else return k
    else return k

/-- The cursor behind the quote that closes a string. There is none if the text runs out first. -/
def stringEnd : Nat → Cursor → Scan (Option Cursor)
  | 0, _ => none
  | n + 1, k => do
    match ← k.bump text with
    | (some c, k) =>
      if c = '"' then return some k
      else if c = '\\' then stringEnd n (← k.bump text).2
      else stringEnd n k
    | (none, _) => return none

def numberEnd : Nat → Char → Cursor → Scan Cursor
  | 0, _, _ => none
  | n + 1, previous, k => do
    match ← k.peek text with
    | some c =>
      if c.isAlphanum || c == '_' || (c == '.' && (byteAt text (k.pos + 1)).any isAsciiDigit) ||
          ((c == '+' || c == '-') && (previous == 'e' || previous == 'E')) then
        numberEnd n c (← k.bump text).2
      else return k
    | none => return k

def twoCharSigns : List (List Char) := ["::", "&&", "||", "==", "!=", "<=", ">="].map String.toList

/-- The token that starts with `c`, and the cursor behind it. -/
def tokenEnd (n : Nat) (k : Cursor) (p : Place) (c : Char) : Scan (TokenKind × Cursor) := do
  if c = '"' then
    match ← stringEnd text n (← k.bump text).2 with
    | some k' => return (.str, k')
    | none => throw (.unterminatedString p)
  else if c.isDigit || (c == '.' && (byteAt text (k.pos + 1)).any isAsciiDigit) then
    return (.number, ← numberEnd text n '\x00' k)
  else if c = '$' then
    let k' ← Cursor.eatWhile text isIdentRest n (k.skip 1)
    if k'.pos = k.pos + 1 then throw (.unexpectedChar c p)
    else return (.macroName, k')
  else if isIdentStart c then return (.ident, ← Cursor.eatWhile text isIdentRest n k)
  else
    let rest ← k.ahead text
    match twoCharSigns.find? (·.isPrefixOf rest) with
    | some sign => return (.punct, k.skip (byteLength sign))
    | none => if isSign c then return (.punct, k.skip 1) else throw (.unexpectedChar c p)

def scanFrom : Nat → List Mark → Cursor → Scan (List Mark)
  | 0, _, _ => none
  | n + 1, marks, k => do
    let k ← skipTrivia text (n + 1) k
    match ← k.peek text with
    | some c =>
      let p ← k.place text
      let (kind, k') ← tokenEnd text (n + 1) k p c
      scanFrom n (marks ++ [⟨kind, k.pos, k'.pos, p.line, p.column⟩]) k'
    | none => return marks

/-- The tokens of a script, by their bytes. -/
def scan : Scan (List Mark) := scanFrom text (text.length + 1) [] .start

end Reader

section Gaps

variable {c : Char}

theorem skipGap_lineComment (p : Place) (cs : List Char) :
    skipGap .lineComment p cs =
      skipGap .blanks (p.advance (cs.takeWhile (· != '\n'))) (cs.dropWhile (· != '\n')) := by
  induction cs generalizing p with
  | nil => rfl
  | cons c cs ih =>
    by_cases hc : c = '\n'
    · subst hc
      rfl
    · rw [skipGap, if_neg hc, List.takeWhile_cons_of_pos (by simpa using hc),
        List.dropWhile_cons_of_pos (by simpa using hc), ih]
      rfl

theorem skipGap_blockComment (o p : Place) (cs : List Char) :
    skipGap (.blockComment o) p cs =
      match Markup.splitPast ['*', '/'] cs with
      | some (run, after) => skipGap .blanks (p.advance run) after
      | none => .error (.unterminatedComment o) := by
  induction cs generalizing p with
  | nil => rfl
  | cons c cs ih =>
    rw [Markup.splitPast]
    by_cases hprefix : ['*', '/'].isPrefixOf (c :: cs) = true
    · obtain ⟨after, hafter⟩ := List.isPrefixOf_iff_prefix.mp hprefix
      obtain ⟨rfl, rfl⟩ := List.cons.inj hafter
      rfl
    · rw [if_neg hprefix, skipGap]
      · rw [ih]
        cases Markup.splitPast ['*', '/'] cs <;> rfl
      · intro rest hc hcs
        subst hc hcs
        exact hprefix rfl

theorem skipGap_blank (hc : isBlank c = true) (p : Place) (cs : List Char) :
    skipGap .blanks p (c :: cs) = skipGap .blanks (p.after c) cs := by
  have hslash : c ≠ '/' := by
    intro h
    subst h
    revert hc
    decide
  rw [skipGap, if_pos hc]
  · exact fun _ h _ => hslash h
  · exact fun _ h _ => hslash h

end Gaps

section Trivia

variable {text rest : List Char} {k : Cursor} {p : Place} {c : Char} {n : Nat}

private theorem byteAt_slash_iff (h : k.At text p rest) : byteAt text k.pos = some '/'.toUInt8 ↔ rest.head? = some '/' := by
  rw [h.byteAt, map_leadByte_eq_iff (by decide)]

private theorem not_any_isAsciiBlank (h : k.At text p (c :: rest)) (hc : isBlank c = false) :
    ¬ (byteAt text k.pos).any isAsciiBlank = true := by
  rw [h.byteAt]
  intro hb
  have := isBlank_of_isAsciiBlank hb
  rw [hc] at this
  cases this

private theorem skipTrivia_blank (h : k.At text p (c :: rest)) (hc : isBlank c = true) :
    skipTrivia text (n + 1) k = skipTrivia text n (k.past c) := by
  have hslash : ¬ byteAt text k.pos = some '/'.toUInt8 := by
    rw [byteAt_slash_iff h, List.head?_cons, Option.some.injEq]
    intro hc'
    subst hc'
    revert hc
    decide
  rw [skipTrivia, h.bump, pure_bind]
  split
  · rfl
  · rw [if_neg (mt And.left hslash), if_neg (mt And.left hslash), h.byteAt, h.peek, pure_bind]
    exact if_pos hc

private theorem skipTrivia_lineComment (h : k.At text p ('/' :: '/' :: rest))
    (hn : ('/' :: '/' :: rest).length < n + 1) :
    ∃ k', skipTrivia text (n + 1) k = skipTrivia text n k' ∧
      k'.At text ((p.advance ['/', '/']).advance (rest.takeWhile (· != '\n'))) (rest.dropWhile (· != '\n')) := by
  have hbehind : byteAt text (k.pos + 1) = some '/'.toUInt8 := h.byteAt_succ rfl
  obtain ⟨k', hk, hat⟩ := h.eatWhile hn (· != '\n')
  refine ⟨k', ?_, hat⟩
  rw [skipTrivia, if_neg (not_any_isAsciiBlank h (by decide)), if_pos ⟨(byteAt_slash_iff h).mpr rfl, hbehind⟩, hk,
    pure_bind]

private theorem skipTrivia_blockComment (h : k.At text p ('/' :: '*' :: rest)) (hn : rest.length < n + 1) :
    (Markup.splitPast ['*', '/'] rest = none ∧ skipTrivia text (n + 1) k = throw (.unterminatedComment p)) ∨
    ∃ run after k', Markup.splitPast ['*', '/'] rest = some (run, after) ∧
      skipTrivia text (n + 1) k = skipTrivia text n k' ∧
      k'.At text ((p.advance ['/', '*']).advance run) after := by
  have hbehind : byteAt text (k.pos + 1) = some '*'.toUInt8 := h.byteAt_succ rfl
  have hnot : ¬ (byteAt text k.pos = some '/'.toUInt8 ∧ byteAt text (k.pos + 1) = some '/'.toUInt8) := by
    rw [hbehind]
    exact fun h => absurd h.2 (by decide)
  have hopen : (k.skip 2).At text (p.advance ['/', '*']) rest := h.skip ['/', '*'] (by decide)
  rw [skipTrivia, if_neg (not_any_isAsciiBlank h (by decide)), if_neg hnot,
    if_pos ⟨(byteAt_slash_iff h).mpr rfl, hbehind⟩, h.place, pure_bind]
  obtain ⟨hnone, hk⟩ | ⟨run, after, k', hsome, hk, hat⟩ :=
    hopen.skipPast hn (List.cons_ne_nil '*' ['/']) (by decide)
  · exact .inl ⟨hnone, by rw [hk, pure_bind]⟩
  · exact .inr ⟨run, after, k', hsome, by rw [hk, pure_bind], hat⟩

private theorem skipTrivia_stop (h : k.At text p (c :: rest)) (hc : Stops c rest) :
    skipTrivia text (n + 1) k = pure k := by
  have hpair (d : Char) (hd : d.toNat < 128) (hrest : c = '/' → rest.head? ≠ some d) :
      ¬ (byteAt text k.pos = some '/'.toUInt8 ∧ byteAt text (k.pos + 1) = some d.toUInt8) := by
    rw [byteAt_slash_iff h, List.head?_cons, Option.some.injEq]
    intro ⟨hslash, hbehind⟩
    subst hslash
    rw [h.byteAt_succ rfl, map_leadByte_eq_iff hd] at hbehind
    exact hrest rfl hbehind
  rw [skipTrivia, if_neg (not_any_isAsciiBlank h hc.1), if_neg (hpair '/' (by decide) fun h => (hc.2 h).1),
    if_neg (hpair '*' (by decide) fun h => (hc.2 h).2), h.byteAt, h.peek, pure_bind]
  exact (if_pos rfl).trans (if_neg (by simp [hc.1]))

/-- A cursor comes to stand where something was passed. -/
abbrev Lands (text : List Char) (k : Cursor) (target : Place × List Char) : Prop :=
  k.At text target.1 target.2

/-- Blanks and comments are passed, and a comment that does not end is the fault. -/
theorem skipTrivia_yields (h : k.At text p rest) (hn : rest.length < n) :
    Yields (Lands text) (skipTrivia text n k) (skipGap .blanks p rest) := by
  induction n generalizing k p rest with
  | zero => exact absurd hn (Nat.not_lt_zero _)
  | succ n ih =>
    match rest, h with
    | [], h =>
      rw [skipTrivia, h.byteAt]
      exact .result h
    | c :: rest, h =>
      have hrest : rest.length < n := Nat.lt_of_succ_lt_succ hn
      by_cases hb : isBlank c = true
      · rw [skipGap_blank hb, skipTrivia_blank h hb]
        exact ih h.past hrest
      by_cases hline : c = '/' ∧ rest.head? = some '/'
      · obtain ⟨rfl, hhead⟩ := hline
        obtain ⟨rest, rfl⟩ := List.head?_eq_some_iff.mp hhead
        obtain ⟨k', hk, hat⟩ := skipTrivia_lineComment h hn
        rw [hk, skipGap, skipGap_lineComment]
        have hlength := (List.dropWhile_suffix (· != '\n') (l := rest)).length_le
        exact ih hat (Nat.lt_of_le_of_lt hlength (Nat.lt_of_succ_lt hrest))
      by_cases hblock : c = '/' ∧ rest.head? = some '*'
      · obtain ⟨rfl, hhead⟩ := hblock
        obtain ⟨rest, rfl⟩ := List.head?_eq_some_iff.mp hhead
        have hrest := Nat.lt_of_succ_lt hrest
        rw [skipGap, skipGap_blockComment]
        obtain ⟨hnone, hk⟩ | ⟨run, after, k', hsome, hk, hat⟩ :=
          skipTrivia_blockComment h (Nat.lt_succ_of_lt hrest)
        · rw [hk, hnone]
          exact .fault _
        · rw [hk, hsome]
          have hlength := congrArg List.length (Markup.splitPast_append hsome)
          rw [List.length_append] at hlength
          exact ih hat (by omega)
      have hstops : Stops c rest :=
        ⟨Bool.eq_false_iff.mpr hb, fun hc => ⟨fun h => hline ⟨hc, h⟩, fun h => hblock ⟨hc, h⟩⟩⟩
      rw [hstops.skipGap, skipTrivia_stop h hstops]
      exact .result h

end Trivia

section Reading

variable {text rest : List Char} {k : Cursor} {p : Place} {c : Char} {n : Nat}

/-- A string ends where its body does. -/
theorem stringEnd_eq (h : k.At text p rest) (hn : rest.length < n) :
    (stringBody rest = none ∧ stringEnd text n k = pure none) ∨
    ∃ body after k', stringBody rest = some (body, after) ∧ stringEnd text n k = pure (some k') ∧
      k'.At text (p.advance body) after := by
  induction n using Nat.strongRecOn generalizing k p rest with
  | ind n ih =>
    obtain ⟨n, rfl⟩ : ∃ m, n = m + 1 := ⟨n - 1, by omega⟩
    -- the characters passed here stand before what is found behind them
    have step (run : List Char) {more : List Char} {k' : Cursor} (hat : k'.At text (p.advance run) more) (hmore : more.length < n)
        (hbody : stringBody rest = (stringBody more).map fun x => (run ++ x.1, x.2))
        (hend : stringEnd text (n + 1) k = stringEnd text n k') :
        (stringBody rest = none ∧ stringEnd text (n + 1) k = pure none) ∨
        ∃ body after k', stringBody rest = some (body, after) ∧ stringEnd text (n + 1) k = pure (some k') ∧
          k'.At text (p.advance body) after := by
      rw [hbody, hend]
      obtain ⟨hnone, hk⟩ | ⟨body, after, k', hsome, hk, hat⟩ := ih n n.lt_succ_self hat hmore
      · exact .inl ⟨by rw [hnone]; rfl, hk⟩
      · exact .inr ⟨run ++ body, after, k', by rw [hsome]; rfl, hk, by rwa [Place.advance_append]⟩
    cases rest with
    | nil =>
      rw [stringEnd, h.bump_nil, pure_bind]
      exact .inl ⟨rfl, rfl⟩
    | cons c rest =>
      have hlt : rest.length < n := Nat.lt_of_succ_lt_succ hn
      by_cases hquote : c = '"'
      · subst hquote
        refine .inr ⟨['"'], rest, k.past '"', rfl, ?_, h.past⟩
        rw [stringEnd, h.bump, pure_bind]
        rfl
      by_cases hescape : c = '\\'
      · subst hescape
        cases rest with
        | nil =>
          refine step ['\\'] h.past hlt rfl ?_
          rw [stringEnd, h.bump, pure_bind]
          simp only [hquote, if_false, if_true, h.past.bump_nil, pure_bind]
        | cons d rest =>
          refine step ['\\', d] h.past.past (Nat.lt_of_succ_lt hlt) rfl ?_
          rw [stringEnd, h.bump, pure_bind]
          simp only [hquote, if_false, if_true, h.past.bump, pure_bind]
      · refine step [c] h.past hlt ?_ ?_
        · rw [stringBody]
          · rfl
          · exact hquote
          · exact fun _ _ hc _ => hescape hc
        · rw [stringEnd, h.bump, pure_bind]
          simp only [hquote, hescape, if_false]

private theorem any_isAsciiDigit_eq (h : k.At text p (c :: rest)) :
    (c == '.' && (byteAt text (k.pos + 1)).any isAsciiDigit) = (c == '.' && rest.head?.any Char.isDigit) := by
  by_cases hc : c = '.'
  · subst hc
    rw [h.byteAt_succ rfl, Option.any_map]
    congr 2
    funext d
    exact isAsciiDigit_leadByte d
  · rw [beq_false_of_ne hc]
    rfl

theorem numberEnd_eq (h : k.At text p rest) (hn : rest.length < n) (previous : Char) :
    ∃ k', numberEnd text n previous k = pure k' ∧
      k'.At text (p.advance (numberRun previous rest).1) (numberRun previous rest).2 := by
  induction n generalizing k p rest previous with
  | zero => exact absurd hn (Nat.not_lt_zero _)
  | succ n ih =>
    rw [numberEnd, h.peek, pure_bind]
    match rest, h with
    | [], h => exact ⟨k, rfl, h⟩
    | c :: rest, h =>
      rw [numberRun, continuesNumber, ← any_isAsciiDigit_eq h]
      dsimp only [List.head?_cons]
      split
      · obtain ⟨k', hk, hat⟩ := ih h.past (Nat.lt_of_succ_lt_succ hn) c
        exact ⟨k', by rw [h.bump, pure_bind, hk], hat⟩
      · exact ⟨k, rfl, h⟩

private theorem find?_pairs (pairs : List (Char × Char)) (c d : Char) (rest : List Char) :
    (pairs.map fun x => [x.1, x.2]).find? (·.isPrefixOf (c :: d :: rest)) =
      if pairs.contains (c, d) then some [c, d] else none := by
  induction pairs with
  | nil => rfl
  | cons x pairs ih =>
    have hprefix : [x.1, x.2].isPrefixOf (c :: d :: rest) = ((c, d) == x) := by
      rw [Bool.eq_iff_iff, beq_iff_eq]
      simp only [List.isPrefixOf, Bool.and_true, Bool.and_eq_true, beq_iff_eq]
      exact ⟨fun h => Prod.ext h.1.symm h.2.symm, fun h => h ▸ ⟨rfl, rfl⟩⟩
    rw [List.map_cons, List.find?_cons, hprefix, ih, List.contains_cons]
    cases hx : (c, d) == x with
    | true =>
      rw [← beq_iff_eq.mp hx]
      rfl
    | false => rfl

/-- The sign of two characters at the front is the one that is read as a pair. -/
private theorem find?_twoCharSigns (c : Char) (rest : List Char) :
    twoCharSigns.find? (·.isPrefixOf (c :: rest)) =
      if rest.head?.any (isPair c) then some (c :: rest.take 1) else none := by
  cases rest with
  | nil => simp [twoCharSigns, List.isPrefixOf]
  | cons d rest => exact find?_pairs [(':', ':'), ('&', '&'), ('|', '|'), ('=', '='), ('!', '='), ('<', '='), ('>', '=')] c d rest

/-- A kind goes with a kind, and a cursor behind a lexeme with what is left. -/
abbrev Ends (text : List Char) (p : Place) (a : TokenKind × Cursor) (b : TokenKind × List Char × List Char) : Prop :=
  a.1 = b.1 ∧ a.2.At text (p.advance b.2.1) b.2.2

private theorem numberEnd_yields (h : k.At text p (c :: rest)) (hn : (c :: rest).length < n)
    (hc : (c.isDigit || (c == '.' && rest.head?.any Char.isDigit)) = true) :
    ∃ k', numberEnd text n '\x00' k = pure k' ∧
      k'.At text (p.advance (c :: (numberRun c rest).1)) (numberRun c rest).2 := by
  have hgoes : continuesNumber '\x00' c rest = true := by
    rw [continuesNumber, Char.isAlphanum]
    rw [Bool.or_eq_true] at hc
    rcases hc with hc | hc
    · simp [hc]
    · simp [hc]
  obtain ⟨k', hk, hat⟩ := numberEnd_eq h hn '\x00'
  rw [numberRun, if_pos hgoes] at hat
  exact ⟨k', hk, hat⟩

private theorem name_yields (h : k.At text p (c :: rest)) (hn : (c :: rest).length < n)
    (hc : isIdentStart c = true) :
    ∃ k', Cursor.eatWhile text isIdentRest n k = pure k' ∧
      k'.At text (p.advance (c :: rest.takeWhile isIdentRest)) (rest.dropWhile isIdentRest) := by
  have hrest : isIdentRest c = true := by
    rw [isIdentStart, Bool.or_eq_true] at hc
    rw [isIdentRest, isAlphanumeric]
    rcases hc with hc | hc
    · simp [hc]
    · simp [hc]
  obtain ⟨k', hk, hat⟩ := h.eatWhile hn isIdentRest
  rw [List.takeWhile_cons_of_pos hrest, List.dropWhile_cons_of_pos hrest] at hat
  exact ⟨k', hk, hat⟩

private theorem macroName_yields (h : k.At text p ('$' :: rest)) (hn : rest.length < n) :
    ∃ k', Cursor.eatWhile text isIdentRest n (k.skip 1) = pure k' ∧
      (k'.pos = k.pos + 1 ↔ (rest.takeWhile isIdentRest).isEmpty = true) ∧
      k'.At text (p.advance ('$' :: rest.takeWhile isIdentRest)) (rest.dropWhile isIdentRest) := by
  have hname : (k.skip 1).At text (p.advance ['$']) rest := h.skip ['$'] (by decide)
  obtain ⟨k', hk, hat⟩ := hname.eatWhile hn isIdentRest
  refine ⟨k', hk, ?_, hat⟩
  rw [hat.offset, Place.advance_offset, ← hname.offset, List.isEmpty_iff]
  exact Nat.add_eq_left.trans ⟨eq_nil_of_byteLength, fun h => h ▸ rfl⟩

private theorem pair_yields {d : Char} (h : k.At text p (c :: d :: rest)) (hpair : isPair c d = true) :
    (k.skip (byteLength [c, d])).At text (p.advance [c, d]) rest := by
  have hpairs : ∀ x ∈ [(':', ':'), ('&', '&'), ('|', '|'), ('=', '='), ('!', '='), ('<', '='), ('>', '=')],
      '\n' ∉ [x.1, x.2] := by decide
  exact h.skip [c, d] (hpairs (c, d) (List.contains_iff_mem.mp hpair))

private theorem sign_yields (h : k.At text p (c :: rest)) (hsign : isSign c = true) :
    (k.skip 1).At text (p.advance [c]) rest := by
  have hsigns : "()\x7b\x7d[];,=.!~?:+-*/%&|<>^".toList.all
      (fun c => decide ('\n' ∉ [c] ∧ byteLength [c] = 1)) = true := by decide
  obtain ⟨hline, hlength⟩ := of_decide_eq_true (List.all_eq_true.mp hsigns c (List.contains_iff_mem.mp hsign))
  have hskip := h.skip [c] hline
  rwa [hlength] at hskip

/-- A token ends where it is split off the text. -/
theorem tokenEnd_yields (h : k.At text p (c :: rest)) (hn : (c :: rest).length < n) :
    Yields (Ends text p) (tokenEnd text n k p c) (readToken p c rest) := by
  have hrest : rest.length < n := Nat.lt_of_succ_lt hn
  unfold tokenEnd readToken
  by_cases hquote : c = '"'
  · rw [if_pos hquote, if_pos hquote, h.bump, pure_bind]
    obtain ⟨hnone, hk⟩ | ⟨body, after, k', hsome, hk, hat⟩ := stringEnd_eq h.past hrest
    · rw [hnone, hk, pure_bind]
      exact .fault _
    · rw [hsome, hk, pure_bind]
      exact .result ⟨rfl, hat⟩
  rw [if_neg hquote, if_neg hquote, any_isAsciiDigit_eq h]
  by_cases hnumber : (c.isDigit || (c == '.' && rest.head?.any Char.isDigit)) = true
  · obtain ⟨k', hk, hat⟩ := numberEnd_yields h hn hnumber
    rw [if_pos hnumber, if_pos hnumber, hk, pure_bind]
    exact .result ⟨rfl, hat⟩
  rw [if_neg hnumber, if_neg hnumber]
  by_cases hmacro : c = '$'
  · subst hmacro
    obtain ⟨k', hk, hempty, hat⟩ := macroName_yields h hrest
    rw [if_pos rfl, if_pos rfl, hk, pure_bind]
    dsimp only
    by_cases hnone : k'.pos = k.pos + 1
    · rw [if_pos hnone, if_pos (hempty.mp hnone)]
      exact .fault _
    · rw [if_neg hnone, if_neg (mt hempty.mpr hnone)]
      exact .result ⟨rfl, hat⟩
  rw [if_neg hmacro, if_neg hmacro]
  by_cases hident : isIdentStart c = true
  · obtain ⟨k', hk, hat⟩ := name_yields h hn hident
    rw [if_pos hident, if_pos hident, hk, pure_bind]
    exact .result ⟨rfl, hat⟩
  rw [if_neg hident, if_neg hident, h.ahead, pure_bind, find?_twoCharSigns]
  by_cases hpair : rest.head?.any (isPair c) = true
  · rw [if_pos hpair, if_pos hpair]
    match rest, h with
    | d :: rest, h => exact .result ⟨rfl, pair_yields h hpair⟩
  rw [if_neg hpair, if_neg hpair]
  by_cases hsign : isSign c = true
  · rw [if_pos hsign]
    dsimp only
    rw [if_pos hsign]
    exact .result ⟨rfl, sign_yields h hsign⟩
  · rw [if_neg hsign]
    dsimp only
    rw [if_neg hsign]
    exact .fault _

/-- The tokens come one behind the other, each with its bytes and the place where it starts. -/
theorem scanFrom_eq (h : k.At text p rest) (hn : rest.length < n) (marks : List Mark) :
    (scanFrom text n marks k).run = some ((tokensFrom p rest).map fun ts => marks ++ ts.map Token.mark) := by
  induction n generalizing k p rest marks with
  | zero => exact absurd hn (Nat.not_lt_zero _)
  | succ n ih =>
    have htrivia := skipTrivia_yields h hn
    rw [scanFrom]
    generalize hx : skipTrivia text (n + 1) k = x at htrivia ⊢
    generalize hy : skipGap .blanks p rest = y at htrivia
    cases htrivia with
    | fault e =>
      rw [tokensFrom_of_error hy]
      rfl
    | @result k' target hat =>
      obtain ⟨q, more⟩ := target
      have hmore := Nat.lt_of_le_of_lt (skipGap_length hy) hn
      rw [pure_bind, hat.peek, pure_bind]
      cases more with
      | nil =>
        rw [tokensFrom_of_end hy]
        exact congrArg (some ∘ Except.ok) (List.append_nil marks).symm
      | cons c more =>
        have htoken := tokenEnd_yields hat hmore
        rw [List.head?_cons]
        dsimp only
        rw [hat.place, pure_bind]
        generalize tokenEnd text (n + 1) k' q c = x at htoken ⊢
        generalize ht : readToken q c more = y at htoken
        cases htoken with
        | fault e =>
          rw [tokensFrom_of_fault hy ht]
          rfl
        | @result a b hends =>
          obtain ⟨kind, k''⟩ := a
          obtain ⟨kind', lexeme, after⟩ := b
          obtain ⟨rfl, hat'⟩ := hends
          obtain ⟨tail, hlexeme, happend⟩ := readToken_append ht
          have hlength : after.length < n := by
            have := congrArg List.length happend
            rw [List.length_append] at this
            simp only [List.length_cons] at hmore
            omega
          have hmark : (⟨kind, k'.pos, k''.pos, q.line, q.column⟩ : Mark) =
              Token.mark ⟨kind, String.ofList lexeme, q⟩ := by
            rw [hat.offset, hat'.offset, Place.advance_offset, Token.mark_ofList]
          rw [pure_bind]
          dsimp only
          rw [hmark, ih hat' hlength, tokensFrom_of_token hy ht]
          cases tokensFrom (q.advance lexeme) after with
          | error e => rfl
          | ok ts => simp [Except.map]

/-- **Scanning a script comes to its tokens**, or to its fault: no slice is ever taken that is not there. -/
theorem scan_eq (text : List Char) :
    (scan text).run = some ((source text).map fun s => s.tokens.map Token.mark) := by
  rw [scan, scanFrom_eq (.start text) (Nat.lt_succ_self _), source]
  cases tokensFrom .origin text <;> rfl

end Reading

end ModWeave.Script
