import ModWeave.Proofs.Token.Reads

/-! Tokens of joined documents. A document can be cut behind the end of a tag, and before the next
token there: comments and instructions are closed in themselves. -/
namespace ModWeave.Markup
open Text

theorem isPrefixOf_local {mark z cs : List Char} (hm : '>' ∉ mark) (hz : '>' ∈ z)
    (ds : List Char) : mark.isPrefixOf (z ++ cs) = mark.isPrefixOf (z ++ ds) := by
  induction mark generalizing z with
  | nil => simp
  | cons m mark ih =>
    cases z with
    | nil => simp at hz
    | cons d z =>
      simp only [List.cons_append, List.isPrefixOf]
      by_cases hne : m = d
      · subst hne
        have hmark : '>' ∉ mark := fun h => hm (List.mem_cons_of_mem _ h)
        have hz' : '>' ∈ z := by
          rcases List.mem_cons.mp hz with rfl | h
          · exact absurd List.mem_cons_self hm
          · exact h
        rw [ih hmark hz']
      · rw [beq_false_of_ne hne, Bool.false_and, Bool.false_and]

private theorem isPrefixOf_of_length {mark z cs : List Char} (h : mark.length ≤ z.length)
    (ds : List Char) : mark.isPrefixOf (z ++ cs) = mark.isPrefixOf (z ++ ds) := by
  induction mark generalizing z with
  | nil => simp
  | cons m mark ih =>
    cases z with
    | nil => simp at h
    | cons d z =>
      simp only [List.cons_append, List.isPrefixOf]
      rw [ih (by simpa using h)]

private theorem splitPast_length {mark cs run after : List Char}
    (h : splitPast mark cs = some (run, after)) : mark.length ≤ run.length := by
  induction cs generalizing run after with
  | nil => simp [splitPast] at h
  | cons c rest ih =>
    unfold splitPast at h
    split at h
    · cases h
      exact Nat.le_refl _
    · obtain ⟨⟨r, a⟩, hr, he⟩ := Option.map_eq_some_iff.mp h
      cases he
      exact Nat.le_succ_of_le (ih hr)

private theorem splitPast_local {mark cs run after : List Char} (hm : mark ≠ [])
    (h : splitPast mark cs = some (run, after)) (ds : List Char) :
    splitPast mark (run ++ ds) = some (run, ds) := by
  induction cs generalizing run after with
  | nil => simp [splitPast] at h
  | cons c rest ih =>
    have happ := splitPast_append h
    unfold splitPast at h
    split at h
    · cases h
      obtain ⟨m, mark, rfl⟩ := List.exists_cons_of_ne_nil hm
      have hp : (m :: mark).isPrefixOf (m :: (mark ++ ds)) := by
        simp [List.isPrefixOf_iff_prefix]
      rw [List.cons_append, splitPast, if_pos hp]
      simp
    · rename_i hp
      obtain ⟨⟨r, a⟩, hr, he⟩ := Option.map_eq_some_iff.mp h
      cases he
      have hlen : mark.length ≤ (c :: r).length := Nat.le_succ_of_le (splitPast_length hr)
      rw [← happ, isPrefixOf_of_length hlen ds] at hp
      rw [List.cons_append] at hp ⊢
      rw [splitPast, if_neg hp, ih hr]
      rfl

private theorem mem_of_splitPast {mark : String} {cs run after : List Char} {c : Char}
    (hc : c ∈ mark.toList) (h : splitPast mark.toList cs = some (run, after)) : c ∈ run := by
  induction cs generalizing run after with
  | nil => simp [splitPast] at h
  | cons d rest ih =>
    unfold splitPast at h
    split at h
    · cases h
      exact hc
    · obtain ⟨⟨r, a⟩, hr, he⟩ := Option.map_eq_some_iff.mp h
      cases he
      exact List.mem_cons_of_mem _ (ih hr)

private theorem eq_singleton_of_take {tail w cs : List Char} (h : tail ++ w ≠ [])
    (ht : (tail ++ (w ++ cs)).take 1 = tail) : ∃ d, tail = [d] := by
  apply List.length_eq_one_iff.mp
  have hpos := List.length_pos_iff.mpr h
  rw [← ht]
  simp only [List.length_append, List.length_take] at hpos ⊢
  omega

theorem trimEnd_blanks (cs : List Char) :
    ∃ blanks, cs = trimEnd cs ++ blanks ∧ ∀ b ∈ blanks, isBlank b := by
  refine ⟨(cs.reverse.takeWhile isBlank).reverse, ?_, ?_⟩
  · rw [trimEnd, ← List.reverse_append, List.takeWhile_append_dropWhile, List.reverse_reverse]
  · intro b hb
    exact List.all_eq_true.mp List.all_takeWhile b (List.mem_reverse.mp hb)

/-- Character data ends where it did as long as a tag follows. -/
private theorem textRun_local {tail w cs : List Char} (hw : '>' ∈ w)
    (h : trimEnd ((tail ++ (w ++ cs)).takeWhile (· != '<')) = tail) (ds : List Char) :
    trimEnd ((tail ++ (w ++ ds)).takeWhile (· != '<')) = tail := by
  obtain ⟨blanks, hrun, hb⟩ := trimEnd_blanks ((tail ++ (w ++ cs)).takeWhile (· != '<'))
  rw [h] at hrun
  have hsplit := List.takeWhile_append_dropWhile (p := (· != '<')) (l := tail ++ (w ++ cs))
  rw [hrun, List.append_assoc, List.append_cancel_left_eq] at hsplit
  have hnot : '>' ∉ blanks := fun hmem => absurd (hb _ hmem) (by decide)
  obtain ⟨x, rfl, hx⟩ | ⟨x, rfl, -⟩ := List.append_eq_append_iff.mp hsplit
  · obtain ⟨d, x, rfl⟩ : ∃ d x', x = d :: x' := by
      apply List.exists_cons_of_ne_nil
      rintro rfl
      exact hnot (by simpa using hw)
    have hd : (d != '<') = false := by
      have hhead := List.head?_dropWhile_not (· != '<') (tail ++ (blanks ++ d :: x ++ cs))
      rw [hx] at hhead
      simpa using hhead
    have hpos : ∀ a ∈ tail ++ blanks, (a != '<') = true := by
      intro a ha
      rw [← hrun] at ha
      exact List.all_eq_true.mp List.all_takeWhile a ha
    have hlist : tail ++ (blanks ++ d :: x ++ ds) = tail ++ blanks ++ d :: (x ++ ds) := by simp
    rw [hlist, List.takeWhile_append_of_pos hpos, List.takeWhile_cons, hd]
    rw [hrun] at h
    simpa using h
  · exact absurd (List.mem_append_left _ hw) hnot

private theorem pieceTo_local {mark : String} {kind kind' : Option TokenKind} {e : ParseError}
    {c : Char} {tail rest : List Char} {inTag : Bool} (hm : mark.toList ≠ [])
    (h : pieceTo mark kind e c (tail ++ rest) = .ok ⟨kind', c :: tail, rest, inTag⟩)
    (e' : ParseError) (ds : List Char) :
    pieceTo mark kind e' c (tail ++ ds) = .ok ⟨kind', c :: tail, ds, inTag⟩ := by
  unfold pieceTo at h ⊢
  split at h
  · rename_i run after hs
    cases h
    rw [splitPast_local hm hs]
  · cases h

/-- A piece between tags stays the same when the text changes behind it, as long as the end of a tag
is still to come. -/
private theorem readContent_local {p : Place} {c : Char} {tail w cs : List Char}
    {kind : Option TokenKind} {inTag : Bool} (hz : '>' ∈ tail ++ w) (hw : kind.isSome → '>' ∈ w)
    (h : readContent p c (tail ++ (w ++ cs)) = .ok ⟨kind, c :: tail, w ++ cs, inTag⟩) (q : Place)
    (ds : List Char) :
    readContent q c (tail ++ (w ++ ds)) = .ok ⟨kind, c :: tail, w ++ ds, inTag⟩ := by
  have hne : tail ++ w ≠ [] := List.ne_nil_of_mem hz
  have hmarks (mark : List Char) (hm : '>' ∉ mark) :
      mark.isPrefixOf (tail ++ (w ++ cs)) = mark.isPrefixOf (tail ++ (w ++ ds)) := by
    rw [← List.append_assoc, ← List.append_assoc, isPrefixOf_local hm hz ds]
  unfold readContent at h ⊢
  rw [hmarks "!--".toList (by decide), hmarks "![CDATA[".toList (by decide),
    head?_local hne] at h
  split at h
  · rename_i hc
    rw [if_pos hc]
    simp only [Except.ok.injEq, Piece.mk.injEq, List.cons.injEq, true_and] at h ⊢
    obtain ⟨rfl, hrun, -, rfl⟩ := h
    have hrun' := textRun_local (hw rfl) hrun ds
    simp [hrun']
  rename_i hc
  rw [if_neg hc]
  split at h
  · rename_i hc
    rw [if_pos hc]
    exact pieceTo_local (by decide) h _ _
  rename_i hc
  rw [if_neg hc]
  split at h
  · rename_i hc
    rw [if_pos hc]
    exact pieceTo_local (by decide) h _ _
  rename_i hc
  rw [if_neg hc]
  split at h
  · rename_i hc
    rw [if_pos hc]
    exact pieceTo_local (by decide) h _ _
  rename_i hc
  rw [if_neg hc]
  split at h
  · rename_i hc
    rw [if_pos hc]
    exact pieceTo_local (by decide) h _ _
  rename_i hc
  rw [if_neg hc]
  split at h
  · rename_i hc
    rw [if_pos hc]
    simp only [Except.ok.injEq, Piece.mk.injEq, List.cons.injEq, true_and] at h ⊢
    obtain ⟨rfl, ht, -, rfl⟩ := h
    obtain ⟨d, rfl⟩ := eq_singleton_of_take hne ht
    simp
  · rename_i hc
    rw [if_neg hc]
    simp only [Except.ok.injEq, Piece.mk.injEq, List.cons.injEq, true_and] at h ⊢
    obtain ⟨rfl, rfl, -, rfl⟩ := h
    simp

/-- A piece inside a tag stays the same when the text changes behind it, as long as the end of a tag
is still to come. -/
private theorem readTag_local {p : Place} {c : Char} {tail w cs : List Char}
    {kind : Option TokenKind} {inTag : Bool} (hw : w ≠ [])
    (h : readTag p c (tail ++ (w ++ cs)) = .ok ⟨kind, c :: tail, w ++ cs, inTag⟩) (q : Place)
    (ds : List Char) :
    readTag q c (tail ++ (w ++ ds)) = .ok ⟨kind, c :: tail, w ++ ds, inTag⟩ := by
  have hne : tail ++ w ≠ [] := by simp [hw]
  unfold readTag at h ⊢
  rw [head?_local hne] at h
  split at h
  · rename_i hc
    rw [if_pos hc]
    simp only [Except.ok.injEq, Piece.mk.injEq, List.cons.injEq, true_and] at h ⊢
    obtain ⟨rfl, rfl, -, rfl⟩ := h
    simp
  rename_i hc
  rw [if_neg hc]
  split at h
  · rename_i hc
    rw [if_pos hc]
    simp only [Except.ok.injEq, Piece.mk.injEq, List.cons.injEq, true_and] at h ⊢
    obtain ⟨rfl, ht, -, rfl⟩ := h
    obtain ⟨d, rfl⟩ := eq_singleton_of_take hne ht
    simp
  rename_i hc
  rw [if_neg hc]
  split at h
  · rename_i hc
    rw [if_pos hc]
    simp only [Except.ok.injEq, Piece.mk.injEq, List.cons.injEq, true_and] at h ⊢
    obtain ⟨rfl, rfl, -, rfl⟩ := h
    simp
  rename_i hc
  rw [if_neg hc]
  split at h
  · rename_i hc
    rw [if_pos hc]
    split at h
    · rename_i run after hs
      simp only [Except.ok.injEq, Piece.mk.injEq, List.cons.injEq, true_and] at h
      obtain ⟨rfl, rfl, rfl, rfl⟩ := h
      rw [splitPast_local (by simp) hs]
    · cases h
  rename_i hc
  rw [if_neg hc]
  split at h
  · rename_i hc
    rw [if_pos hc]
    simp only [Except.ok.injEq, Piece.mk.injEq, List.cons.injEq, true_and] at h ⊢
    obtain ⟨rfl, ht, -, rfl⟩ := h
    obtain ⟨h1, h2⟩ := takeWhile_local hw ht ds
    exact ⟨rfl, h1, h2, rfl⟩
  · cases h

/-- The token of a piece at a place, if it is one. -/
def Piece.tokens (piece : Piece) (q : Place) : List Token :=
  piece.kind.toList.map (⟨·, String.ofList piece.chars, q⟩)

/-- The place behind the blanks at the front. -/
abbrev pastBlanks (p : Place) (cs : List Char) : Place := p.advance (cs.takeWhile isBlank)

section

variable {inTag : Bool} {p q : Place} {cs ds rest : List Char} {c : Char} {ts : List Token}
  {piece : Piece}

theorem tokensFrom_of_blanks (h : cs.dropWhile isBlank = []) :
    tokensFrom inTag p cs =
      if inTag then .error (.unexpectedEnd (.delimiter ">")) else .ok [] := by
  rw [tokensFrom]
  split
  · rfl
  · rename_i hd
    rw [h] at hd
    cases hd

theorem tokensFrom_of_piece (h : cs.dropWhile isBlank = c :: rest)
    (hr : readPiece inTag (pastBlanks p cs) c rest = .ok piece) :
    tokensFrom inTag p cs =
      (tokensFrom piece.inTag ((pastBlanks p cs).advance piece.chars) piece.rest).map
        (piece.tokens (pastBlanks p cs) ++ ·) := by
  rw [tokensFrom]
  split
  · rename_i hd
    rw [h] at hd
    cases hd
  · rename_i hd
    rw [h] at hd
    cases hd
    simp only
    split
    · rename_i hp
      rw [hr] at hp
      cases hp
    · rename_i hp
      rw [hr] at hp
      cases hp
      unfold Piece.tokens
      split
      · rename_i hk
        rw [hk]
        rfl
      · rename_i hk
        rw [hk]
        cases tokensFrom piece.inTag ((pastBlanks p cs).advance piece.chars) piece.rest <;> rfl

theorem tokensFrom_of_fault {e : ParseError} (h : cs.dropWhile isBlank = c :: rest)
    (hr : readPiece inTag (pastBlanks p cs) c rest = .error e) :
    tokensFrom inTag p cs = .error e := by
  rw [tokensFrom]
  split
  · rename_i hd
    rw [h] at hd
    cases hd
  · rename_i hd
    rw [h] at hd
    cases hd
    simp only
    split
    · rename_i hp
      rw [hr] at hp
      cases hp
      rfl
    · rename_i hp
      rw [hr] at hp
      cases hp

/-- Pieces are read one by one behind their blanks, up to an end outside all tags. -/
theorem tokensFrom_eq_ok (h : tokensFrom inTag p cs = .ok ts) :
    (cs.dropWhile isBlank = [] ∧ inTag = false ∧ ts = []) ∨
    ∃ c rest piece more, cs.dropWhile isBlank = c :: rest ∧
      readPiece inTag (pastBlanks p cs) c rest = .ok piece ∧
      tokensFrom piece.inTag ((pastBlanks p cs).advance piece.chars) piece.rest = .ok more ∧
      ts = piece.tokens (pastBlanks p cs) ++ more := by
  cases hd : cs.dropWhile isBlank with
  | nil =>
    rw [tokensFrom_of_blanks hd] at h
    cases inTag with
    | true => cases h
    | false =>
      cases h
      exact .inl ⟨rfl, rfl, rfl⟩
  | cons c rest =>
    cases hr : readPiece inTag (pastBlanks p cs) c rest with
    | error e =>
      rw [tokensFrom_of_fault hd hr] at h
      cases h
    | ok piece =>
      rw [tokensFrom_of_piece hd hr] at h
      cases hm : tokensFrom piece.inTag ((pastBlanks p cs).advance piece.chars) piece.rest with
      | error e =>
        rw [hm] at h
        cases h
      | ok more =>
        rw [hm] at h
        cases h
        exact .inr ⟨c, rest, piece, more, rfl, hr, hm, rfl⟩

/-- The lexemes from a place on. -/
def lexemesFrom (inTag : Bool) (p : Place) (cs : List Char) : Option (List Lexeme) :=
  (tokensFrom inTag p cs).toOption.map (·.map Token.content)

private theorem readPiece_place (h : readPiece inTag p c rest = .ok piece) (q : Place) :
    readPiece inTag q c rest = .ok piece := by
  have hpq : (readPiece inTag p c rest).toOption = (readPiece inTag q c rest).toOption := by
    unfold readPiece
    split
    · unfold readTag
      split
      · rfl
      split
      · rfl
      split
      · rfl
      split
      · split <;> rfl
      split <;> rfl
    · unfold readContent pieceTo
      split
      · rfl
      split
      · split <;> rfl
      split
      · split <;> rfl
      rfl
  rw [h] at hpq
  cases hq : readPiece inTag q c rest with
  | error e => simp [hq, Except.toOption] at hpq
  | ok y => simpa [hq, Except.toOption] using hpq.symm

def Piece.lexemes (piece : Piece) : List Lexeme :=
  piece.kind.toList.map (·, String.ofList piece.chars)

private theorem Piece.content_tokens (piece : Piece) (q : Place) :
    (piece.tokens q).map Token.content = piece.lexemes := by
  simp only [Piece.tokens, Piece.lexemes, List.map_map]
  rfl

private theorem map_lexemes {α β : Type} (f : α → β) (x : List α) (r : Except ParseError (List α)) :
    (r.map (x ++ ·)).toOption.map (·.map f) = (r.toOption.map (·.map f)).map (x.map f ++ ·) := by
  cases r <;> simp [Except.map, Except.toOption]

/-- The lexemes depend on nothing but the text behind the first blanks. -/
theorem lexemesFrom_congr (h : cs.dropWhile isBlank = ds.dropWhile isBlank) :
    lexemesFrom inTag p cs = lexemesFrom inTag q ds := by
  induction hn : cs.length using Nat.strongRecOn generalizing inTag p q cs ds with
  | ind n ih =>
    subst hn
    unfold lexemesFrom
    cases hd : cs.dropWhile isBlank with
    | nil =>
      rw [tokensFrom_of_blanks hd, tokensFrom_of_blanks (h ▸ hd)]
    | cons c rest =>
      have hd' := h ▸ hd
      cases hr : readPiece inTag (pastBlanks p cs) c rest with
      | error e =>
        cases hr' : readPiece inTag (pastBlanks q ds) c rest with
        | error e' =>
          rw [tokensFrom_of_fault hd hr, tokensFrom_of_fault hd' hr']
          rfl
        | ok piece =>
          rw [readPiece_place hr' _] at hr
          cases hr
      | ok piece =>
        have hr' := readPiece_place hr (pastBlanks q ds)
        have hlen : piece.rest.length < cs.length := by
          obtain ⟨tail, -, rfl⟩ := readPiece_append hr
          have := (List.dropWhile_suffix isBlank (l := cs)).length_le
          simp [hd] at this
          omega
        rw [tokensFrom_of_piece hd hr, tokensFrom_of_piece hd' hr', map_lexemes, map_lexemes,
          Piece.content_tokens, Piece.content_tokens]
        exact congrArg _ (ih piece.rest.length hlen rfl rfl)

private theorem lexemesFrom_place (inTag : Bool) (p q : Place) (cs : List Char) :
    lexemesFrom inTag p cs = lexemesFrom inTag q cs :=
  lexemesFrom_congr rfl

/-- The lexeme of the first piece, and those behind it. -/
theorem lexemesFrom_of_piece (h : cs.dropWhile isBlank = c :: rest)
    (hr : readPiece inTag q c rest = .ok piece) :
    lexemesFrom inTag p cs = (lexemesFrom piece.inTag p piece.rest).map (piece.lexemes ++ ·) := by
  rw [lexemesFrom_place piece.inTag p ((pastBlanks p cs).advance piece.chars)]
  unfold lexemesFrom
  rw [tokensFrom_of_piece h (readPiece_place hr _), map_lexemes, Piece.content_tokens]

private theorem readPiece_local {tail w : List Char} {kind : Option TokenKind} {inTag' : Bool}
    (hw : '>' ∈ w)
    (h : readPiece inTag p c (tail ++ (w ++ cs)) = .ok ⟨kind, c :: tail, w ++ cs, inTag'⟩)
    (q : Place) (ds : List Char) :
    readPiece inTag q c (tail ++ (w ++ ds)) = .ok ⟨kind, c :: tail, w ++ ds, inTag'⟩ := by
  unfold readPiece at h ⊢
  split at h
  · rename_i hin
    rw [if_pos hin]
    exact readTag_local (List.ne_nil_of_mem hw) h q ds
  · rename_i hin
    rw [if_neg hin]
    exact readContent_local (List.mem_append_right _ hw) (fun _ => hw) h q ds

/-- The end of a tag stays what it is, whatever follows. -/
private theorem readPiece_closer {tail after : List Char} {kind : TokenKind} {inTag' : Bool}
    (h : readPiece inTag p c rest = .ok ⟨some kind, c :: tail, after, inTag'⟩)
    (hc : Language.markup.closes (kind, String.ofList (c :: tail))) :
    inTag = true ∧ inTag' = false ∧ '>' ∈ c :: tail ∧
      ∀ q ds, readPiece true q c (tail ++ ds) = .ok ⟨some kind, c :: tail, ds, false⟩ := by
  simp only [Language.closes, Bool.and_eq_true, Bool.or_eq_true, beq_iff_eq,
    ← String.toList_inj, String.toList_ofList] at hc
  obtain ⟨rfl, hchars⟩ := hc
  replace hchars : (c = '>' ∧ tail = []) ∨ (c = '/' ∧ tail = ['>']) :=
    hchars.imp List.cons.inj List.cons.inj
  have hclt : (c != '<') = true := by
    obtain ⟨rfl, -⟩ | ⟨rfl, -⟩ := hchars <;> decide
  cases inTag with
  | false =>
    simp only [readPiece, Bool.false_eq_true, if_false, readContent, hclt, if_true] at h
    cases h
  | true =>
    simp only [readPiece, if_true] at h ⊢
    obtain ⟨rfl, rfl⟩ | ⟨rfl, rfl⟩ := hchars
    · rw [readTag, if_pos rfl] at h
      cases h
      exact ⟨trivial, rfl, by simp, fun q ds => by simp [readTag]⟩
    · have hin : inTag' = false := by
        rw [readTag, if_neg (by decide)] at h
        split at h
        · exact (congrArg Piece.inTag (Except.ok.inj h)).symm
        · rw [if_neg (by decide), if_neg (by decide), if_neg (by decide)] at h
          cases h
      exact ⟨trivial, hin, by simp, fun q ds => by simp [readTag]⟩

theorem blanks_split (h : cs.dropWhile isBlank = c :: rest) :
    ∃ blanks, cs = blanks ++ c :: rest ∧ (∀ b ∈ blanks, isBlank b = true) ∧
      (∀ p, pastBlanks p cs = p.advance blanks) ∧
      (∀ ds, (blanks ++ ds).dropWhile isBlank = ds.dropWhile isBlank) ∧
      ∀ ds : List Char, (c :: ds).dropWhile isBlank = c :: ds := by
  have hall : ∀ b ∈ cs.takeWhile isBlank, isBlank b = true :=
    List.all_eq_true.mp List.all_takeWhile
  have hc : isBlank c = false := by
    have hhead := List.head?_dropWhile_not isBlank cs
    rw [h] at hhead
    simpa using hhead
  refine ⟨cs.takeWhile isBlank, ?_, hall, fun _ => rfl, fun ds => ?_, fun ds => ?_⟩
  · rw [← h, List.takeWhile_append_dropWhile]
  · rw [List.dropWhile_append_of_pos hall]
  · rw [List.dropWhile_cons, hc]
    rfl

/-- Behind a token that ends a tag a document can be cut. -/
private theorem tokensFrom_cut {j : Nat} {t : Token} (h : tokensFrom inTag p cs = .ok ts)
    (ht : ts[j]? = some t) (hc : Language.markup.closes t.content) :
    ∃ u w, cs = u ++ w ∧ (p.advance u).offset = t.stop ∧
      tokensFrom false (p.advance u) w = .ok (ts.drop (j + 1)) ∧ '>' ∈ u ∧
      ∀ q ds, lexemesFrom inTag q (u ++ ds) =
        (lexemesFrom false q ds).map ((ts.take (j + 1)).map Token.content ++ ·) := by
  induction hn : cs.length using Nat.strongRecOn generalizing inTag p cs ts j with
  | ind n ih =>
    subst hn
    obtain ⟨-, -, rfl⟩ | ⟨c, rest, ⟨kind, chars, after, inTag'⟩, more, hd, hr, hm, rfl⟩ :=
      tokensFrom_eq_ok h
    · simp at ht
    obtain ⟨blanks, rfl, -, hp, hblanks, hcd⟩ := blanks_split hd
    rw [hp] at hr hm
    obtain ⟨tail, hchars, happ⟩ := readPiece_append hr
    obtain rfl : chars = c :: tail := hchars
    obtain rfl : tail ++ after = rest := happ
    -- what the pieces behind this one give, put behind it
    have step {u w : List Char} {k : Nat} {xs : List Lexeme} (hafter : after = u ++ w)
        (hoff : (((p.advance blanks).advance (c :: tail)).advance u).offset = t.stop)
        (hw : tokensFrom false (((p.advance blanks).advance (c :: tail)).advance u) w =
          .ok (more.drop k))
        (hmem : '>' ∈ u)
        (hu : ∀ q ds, lexemesFrom inTag' q (u ++ ds) = (lexemesFrom false q ds).map (xs ++ ·)) :
        ∃ u w, blanks ++ c :: (tail ++ after) = u ++ w ∧ (p.advance u).offset = t.stop ∧
          tokensFrom false (p.advance u) w = .ok (more.drop k) ∧ '>' ∈ u ∧
          ∀ q ds, lexemesFrom inTag q (u ++ ds) = (lexemesFrom false q ds).map
            (Piece.lexemes ⟨kind, c :: tail, after, inTag'⟩ ++ xs ++ ·) := by
      subst hafter
      refine ⟨blanks ++ (c :: tail ++ u), w, by simp, ?_, ?_, by simp [hmem], fun q ds => ?_⟩
      · rwa [Place.advance_append, Place.advance_append]
      · rwa [Place.advance_append, Place.advance_append]
      · have hlocal := readPiece_local hmem hr q ds
        have hdrop : (blanks ++ (c :: tail ++ u) ++ ds).dropWhile isBlank =
            c :: (tail ++ (u ++ ds)) := by
          rw [List.append_assoc, hblanks, List.append_assoc, List.cons_append, hcd]
        rw [lexemesFrom_of_piece hdrop hlocal, hu, Option.map_map]
        congr 1
        funext x
        simp [Piece.lexemes]
    have hlen : after.length < (blanks ++ c :: (tail ++ after)).length := by
      simp only [List.length_append, List.length_cons]
      omega
    cases kind with
    | none =>
      obtain ⟨u, w, hafter, hoff, hw, hmem, hu⟩ := ih after.length hlen hm ht rfl
      exact step hafter hoff hw hmem hu
    | some kind =>
      cases j with
      | succ j =>
        obtain ⟨u, w, hafter, hoff, hw, hmem, hu⟩ := ih after.length hlen hm ht rfl
        exact step hafter hoff hw hmem hu
      | zero =>
        obtain rfl : ⟨kind, String.ofList (c :: tail), p.advance blanks⟩ = t := by
          simpa [Piece.tokens, hp] using ht
        obtain ⟨rfl, rfl, hmem, hlocal⟩ := readPiece_closer hr hc
        refine ⟨blanks ++ c :: tail, after, by simp, ?_, ?_, List.mem_append_right _ hmem,
          fun q ds => ?_⟩
        · rw [Place.advance_append, Place.advance_offset]
          simp [Token.stop]
        · rw [Place.advance_append]
          exact hm
        · have hdrop : (blanks ++ c :: tail ++ ds).dropWhile isBlank = c :: (tail ++ ds) := by
            rw [List.append_assoc, hblanks, List.cons_append, hcd]
          rw [lexemesFrom_of_piece hdrop (hlocal q ds)]
          rfl

private theorem mem_of_pieceTo {mark : String} {kind kind' : Option TokenKind} {e : ParseError}
    {tail after : List Char} {inTag' : Bool} (hm : '>' ∈ mark.toList)
    (h : pieceTo mark kind e c rest = .ok ⟨kind', c :: tail, after, inTag'⟩) :
    '>' ∈ tail ∧ inTag' = false := by
  unfold pieceTo at h
  split at h
  · rename_i run after hs
    cases h
    exact ⟨mem_of_splitPast hm hs, rfl⟩
  · cases h

/-- What is passed over ends by itself. -/
private theorem readPiece_silent {tail after : List Char} {inTag' : Bool}
    (h : readPiece false p c (tail ++ after) = .ok ⟨none, c :: tail, after, inTag'⟩) :
    inTag' = false ∧ ∀ q ds,
      readPiece false q c (tail ++ ds) = .ok ⟨none, c :: tail, ds, inTag'⟩ := by
  simp only [readPiece, Bool.false_eq_true, if_false] at h ⊢
  obtain ⟨hmem, hin⟩ : '>' ∈ tail ∧ inTag' = false := by
    unfold readContent at h
    split at h
    · cases h
    split at h
    · exact mem_of_pieceTo (by decide) h
    split at h
    · unfold pieceTo at h
      split at h <;> cases h
    split at h
    · exact mem_of_pieceTo (by decide) h
    split at h
    · exact mem_of_pieceTo (by decide) h
    split at h <;> cases h
  refine ⟨hin, fun q ds => ?_⟩
  have hmem' : '>' ∈ tail ++ [] := by simpa using hmem
  exact readContent_local hmem' (by simp) h q ds

/-- What stands outside all tags before the next token, or before the end, reads as no lexeme. -/
private theorem tokensFrom_gap (h : tokensFrom false p cs = .ok ts) :
    ∃ gap rest, cs = gap ++ rest ∧
      (∀ q ds, lexemesFrom false q (gap ++ ds) = lexemesFrom false q ds) ∧
      (ts = [] → rest = []) ∧ ∀ t, ts.head? = some t → t.place = p.advance gap := by
  induction hn : cs.length using Nat.strongRecOn generalizing p cs ts with
  | ind n ih =>
    subst hn
    obtain ⟨hd, -, rfl⟩ | ⟨c, rest, ⟨kind, chars, after, inTag'⟩, more, hd, hr, hm, rfl⟩ :=
      tokensFrom_eq_ok h
    · refine ⟨cs, [], by simp, fun q ds => lexemesFrom_congr ?_, fun _ => rfl, by simp⟩
      have hcs := List.takeWhile_append_dropWhile (p := isBlank) (l := cs)
      rw [hd, List.append_nil] at hcs
      have hall : ∀ b ∈ cs, isBlank b = true := by
        rw [← hcs]
        exact List.all_eq_true.mp List.all_takeWhile
      rw [List.dropWhile_append_of_pos hall]
    obtain ⟨blanks, rfl, -, hp, hblanks, hcd⟩ := blanks_split hd
    rw [hp] at hr hm
    obtain ⟨tail, hchars, happ⟩ := readPiece_append hr
    obtain rfl : chars = c :: tail := hchars
    obtain rfl : tail ++ after = rest := happ
    cases kind with
    | some kind =>
      refine ⟨blanks, _, rfl, fun q ds => lexemesFrom_congr (hblanks ds), by simp [Piece.tokens], ?_⟩
      intro t ht
      obtain rfl : ⟨kind, String.ofList (c :: tail), p.advance blanks⟩ = t := by
        simpa [Piece.tokens, hp] using ht
      rfl
    | none =>
      have hlen : after.length < (blanks ++ c :: (tail ++ after)).length := by
        simp only [List.length_append, List.length_cons]
        omega
      obtain ⟨rfl, hlocal⟩ := readPiece_silent hr
      obtain ⟨gap, rest, hafter, hgap, hnil, hplace⟩ := ih after.length hlen hm rfl
      subst hafter
      refine ⟨blanks ++ (c :: tail ++ gap), rest, by simp, fun q ds => ?_, hnil, fun t ht => ?_⟩
      · have hdrop : (blanks ++ (c :: tail ++ gap) ++ ds).dropWhile isBlank =
            c :: (tail ++ (gap ++ ds)) := by
          rw [List.append_assoc, hblanks, List.append_assoc, List.cons_append, hcd]
        rw [lexemesFrom_of_piece hdrop (hlocal q _), hgap]
        simp [Piece.lexemes]
      · rw [Place.advance_append, Place.advance_append]
        exact hplace t ht

/-- The tokens of a document stand in its text. -/
private theorem laid_of_tokensFrom (h : tokensFrom inTag p cs = .ok ts) : Laid p cs ts := by
  induction hn : cs.length using Nat.strongRecOn generalizing inTag p cs ts with
  | ind n ih =>
    subst hn
    obtain ⟨-, -, rfl⟩ | ⟨c, rest, ⟨kind, chars, after, inTag'⟩, more, hd, hr, hm, rfl⟩ :=
      tokensFrom_eq_ok h
    · exact .nil
    obtain ⟨blanks, rfl, -, hp, -, -⟩ := blanks_split hd
    rw [hp] at hr hm ⊢
    obtain ⟨tail, hchars, happ⟩ := readPiece_append hr
    obtain rfl : chars = c :: tail := hchars
    obtain rfl : tail ++ after = rest := happ
    have hlen : after.length < (blanks ++ c :: (tail ++ after)).length := by
      simp only [List.length_append, List.length_cons]
      omega
    have hmore := ih after.length hlen hm rfl
    cases kind with
    | none =>
      rw [← Place.advance_append] at hmore
      have := Laid.behind hmore
      simpa [Piece.tokens] using this
    | some kind => exact .cons blanks (c :: tail) after kind (by simp) hmore

end

variable {text : List Char} {s : Source} {i : Nat}

theorem tokensFrom_of_source (h : source text = .ok s) :
    s.text = text ∧ tokensFrom false .origin text = .ok s.tokens := by
  unfold source at h
  cases ht : tokensFrom false .origin text with
  | error e => simp [ht, Except.map] at h
  | ok ts =>
    rw [ht] at h
    cases h
    exact ⟨rfl, rfl⟩

theorem laidOut_of_source (h : source text = .ok s) : s.LaidOut := by
  obtain ⟨rfl, ht⟩ := tokensFrom_of_source h
  exact laid_of_tokensFrom ht

theorem lexemes?_eq (cs : List Char) (p : Place) :
    Language.markup.lexemes? cs = lexemesFrom false p cs := by
  rw [lexemesFrom_place false p .origin]
  show (source cs).toOption.map Source.lexemes = _
  unfold lexemesFrom source
  cases tokensFrom false .origin cs <;> rfl

/-- A line break between elements reads as nothing. -/
theorem reads_newline : Language.markup.Reads ['\n'] [] := by
  intro rest
  have hblank : ('\n' :: rest).dropWhile isBlank = rest.dropWhile isBlank :=
    List.dropWhile_cons_of_pos (by decide)
  show Language.markup.lexemes? ('\n' :: rest) = _
  rw [lexemes?_eq _ .origin, lexemes?_eq rest .origin,
    lexemesFrom_congr (q := .origin) hblank]
  simp

/-- At the start of a document, and behind each token that ends a tag. -/
private theorem source_cut (h : source text = .ok s) (hi : s.Closed .markup i) :
    ∃ u w, s.text = u ++ w ∧ byteLength u = s.endAt i ∧
      tokensFrom false (Place.origin.advance u) w = .ok (s.tokens.drop i) ∧
      Language.markup.Reads u (s.lexemes.take i) := by
  obtain ⟨rfl, ht⟩ := tokensFrom_of_source h
  cases i with
  | zero => exact ⟨[], s.text, rfl, rfl, ht, by simpa using Language.Reads.nil⟩
  | succ j =>
    obtain ⟨x, hx, hc⟩ := hi
    rw [Source.lexemes, List.getElem?_map] at hx
    obtain ⟨t, hj, rfl⟩ := Option.map_eq_some_iff.mp hx
    obtain ⟨u, w, hs, hoff, hw, -, hu⟩ := tokensFrom_cut ht hj hc
    refine ⟨u, w, hs, ?_, hw, fun rest => ?_⟩
    · rw [Source.endAt_succ_of_getElem hj, ← hoff, Place.advance_offset]
      simp [Place.origin]
    · rw [lexemes?_eq _ .origin, lexemes?_eq rest .origin, hu, Source.lexemes, List.map_take]

/-- A document can be cut behind a token that ends a tag. -/
theorem cut_endAt (h : source text = .ok s) (hi : s.Closed .markup i) :
    s.Cut .markup (s.endAt i) i := by
  obtain ⟨u, w, hs, hk, -, hu⟩ := source_cut h hi
  exact ⟨u, w, hs, hk, hu⟩

/-- A document can be cut before what stands behind such a token, the end of the text included. -/
theorem cut_startAt (h : source text = .ok s) (hi : s.Closed .markup i) :
    s.Cut .markup (s.startAt i) i := by
  obtain ⟨u, w, hs, hk, hw, hu⟩ := source_cut h hi
  obtain ⟨gap, rest, rfl, hlex, hnil, hplace⟩ := tokensFrom_gap hw
  refine ⟨u ++ gap, rest, by rw [hs, List.append_assoc], ?_, ?_⟩
  · cases ht : s.tokens[i]? with
    | none =>
      have hdrop : s.tokens.drop i = [] := List.drop_eq_nil_of_le (List.getElem?_eq_none_iff.mp ht)
      rw [Source.startAt, ht, hs, hnil hdrop]
      simp
    | some t =>
      have hhead := hplace t (by rw [List.head?_drop, ht])
      rw [Source.startAt_of_getElem ht, Token.start, hhead, ← Place.advance_append,
        Place.advance_offset]
      simp [Place.origin]
  · have hgap : Language.markup.Reads gap [] := by
      intro ds
      rw [lexemes?_eq _ .origin, lexemes?_eq ds .origin, hlex]
      simp
    simpa using hu.append hgap

end ModWeave.Markup
