import Mathlib.Data.List.TakeWhile
import ModWeave.Proofs.Token.Partition

/-!
What a document is written as: character data, and between it tags, CDATA sections, comments, instructions and
declarations. Each of them reads by itself, and character data reads as one text or, if it is blank, as nothing.
-/
namespace ModWeave.Markup

open Text

/-- A stretch that begins with an opening and ends with a mark, the first one in it. The opening's own characters count,
so that the mark may begin in it. -/
structure Spans (opening mark : String) (cs : List Char) : Prop where
  opens : opening.toList <+: cs
  ends : mark.toList <:+ cs
  first : ¬ mark.toList <:+: cs.dropLast

abbrev Comment (cs : List Char) : Prop := Spans "<!--" "-->" cs

/-- What stands between the brackets of a tag. The bracket that ends it may stand in quotes only. -/
inductive TagBody : List Char → Prop
  | nil : TagBody []
  | char {c : Char} {cs : List Char} (hend : c ≠ '>') (hquote : c ≠ '"' ∧ c ≠ '\'') (more : TagBody cs) :
      TagBody (c :: cs)
  | quoted {quote : Char} {value cs : List Char} (hquote : quote = '"' ∨ quote = '\'') (hvalue : quote ∉ value)
      (more : TagBody cs) : TagBody (quote :: (value ++ quote :: cs))

/-- What stands beside character data, from its `<` to its end. -/
inductive Item : List Char → Prop
  | comment {cs : List Char} (h : Comment cs) : Item cs
  | data {cs : List Char} (h : Spans "<![CDATA[" "]]>" cs) : Item cs
  | instruction {cs : List Char} (h : Spans "<?" "?>" cs) : Item cs
  | declaration {cs : List Char} (h : Spans "<!" ">" cs) (hcomment : ¬ "<!--".toList <+: cs)
      (hdata : ¬ "<![CDATA[".toList <+: cs) : Item cs
  | tag {body : List Char} (h : TagBody body) (hopen : body.head? ≠ some '!' ∧ body.head? ≠ some '?') :
      Item ('<' :: (body ++ ['>']))

/-- Items with character data before them, each item complete. -/
inductive Passage : List Char → Prop
  | nil : Passage []
  | item {data x cs : List Char} (hdata : '<' ∉ data) (hx : Item x) (more : Passage cs) :
      Passage (data ++ (x ++ cs))

/-- What character data reads as: its text without the blanks around it. -/
def textOf (run : List Char) : List Lexeme :=
  match run.dropWhile isBlank with
  | [] => []
  | c :: cs => [(.text, String.ofList (c :: trimEnd cs))]

section Text

variable {run more : List Char}

theorem textOf_of_blank (h : ∀ c ∈ run, isBlank c = true) : textOf run = [] := by
  rw [textOf, List.dropWhile_eq_nil_iff.mpr h]

theorem exists_textOf {c : Char} (hc : c ∈ run) (h : isBlank c = false) : ∃ x, textOf run = [(.text, x)] := by
  unfold textOf
  split
  · rename_i hd
    rw [List.dropWhile_eq_nil_iff.mp hd c hc] at h
    cases h
  · exact ⟨_, rfl⟩

theorem trimEnd_append_blank (h : ∀ c ∈ more, isBlank c = true) : trimEnd (run ++ more) = trimEnd run := by
  rw [trimEnd, trimEnd, List.reverse_append, List.dropWhile_append_of_pos]
  intro c hc
  exact h c (List.mem_reverse.mp hc)

theorem textOf_blank_append (h : ∀ c ∈ run, isBlank c = true) : textOf (run ++ more) = textOf more := by
  rw [textOf, List.dropWhile_append_of_pos h]
  rfl

theorem textOf_append_blank (h : ∀ c ∈ more, isBlank c = true) : textOf (run ++ more) = textOf run := by
  unfold textOf
  rw [List.dropWhile_append]
  cases hd : run.dropWhile isBlank with
  | nil => simp [List.dropWhile_eq_nil_iff.mpr h]
  | cons c cs => simp [trimEnd_append_blank h]

end Text

/-- A stretch reads by itself, as some lexemes or as none that any text could have, and leaves the reader between
tags. -/
def ReadsFrom (inTag : Bool) (cs : List Char) (r : Option (List Lexeme)) : Prop :=
  ∀ rest, lexemesFrom inTag .origin (cs ++ rest) =
    r.bind fun ls => (lexemesFrom false .origin rest).map (ls ++ ·)

namespace ReadsFrom

variable {inTag : Bool} {cs ds : List Char} {r r' : Option (List Lexeme)}

theorem nil : ReadsFrom false [] (some []) := by
  intro rest
  simp

theorem append (h : ReadsFrom inTag cs r) (k : ReadsFrom false ds r') :
    ReadsFrom inTag (cs ++ ds) (r.bind fun ls => r'.map (ls ++ ·)) := by
  intro rest
  rw [List.append_assoc, h, k]
  cases r <;> cases r' <;> simp [Function.comp_def]

theorem blanks (gap : List Char) (hgap : ∀ c ∈ gap, isBlank c = true) (h : ReadsFrom inTag cs r) :
    ReadsFrom inTag (gap ++ cs) r := by
  intro rest
  rw [← h rest]
  apply lexemesFrom_congr
  rw [List.append_assoc, List.dropWhile_append_of_pos hgap]

/-- A piece that is the same whatever follows, and what stands behind it. -/
theorem piece {c : Char} (tail : List Char) (kind : Option TokenKind) {inTag' : Bool} (hc : isBlank c = false)
    (hread : ∀ rest, readPiece inTag .origin c (tail ++ (cs ++ rest)) = .ok ⟨kind, c :: tail, cs ++ rest, inTag'⟩)
    (h : ReadsFrom inTag' cs r) :
    ReadsFrom inTag (c :: (tail ++ cs)) (r.map (kind.toList.map (·, String.ofList (c :: tail)) ++ ·)) := by
  intro rest
  have hd : (c :: (tail ++ cs) ++ rest).dropWhile isBlank = c :: (tail ++ (cs ++ rest)) := by
    rw [List.cons_append, List.dropWhile_cons, hc, List.append_assoc]
    rfl
  rw [lexemesFrom_of_piece hd (hread rest), h rest]
  cases r <;> simp [Piece.lexemes, Function.comp_def]

/-- A piece that leaves nothing to be read before the next tag. -/
theorem last {c : Char} (tail : List Char) (kind : Option TokenKind) (hc : isBlank c = false)
    (hread : ∀ rest, readPiece inTag .origin c (tail ++ rest) = .ok ⟨kind, c :: tail, rest, false⟩) :
    ReadsFrom inTag (c :: tail) (some (kind.toList.map (·, String.ofList (c :: tail)))) := by
  have h := nil.piece tail kind hc hread
  simpa using h

theorem fault {c : Char} (hc : isBlank c = false)
    (hread : ∀ rest, ∃ e, readPiece inTag .origin c (cs ++ rest) = .error e) : ReadsFrom inTag (c :: cs) none := by
  intro rest
  obtain ⟨e, he⟩ := hread rest
  have hd : (c :: cs ++ rest).dropWhile isBlank = c :: (cs ++ rest) := by
    rw [List.cons_append, List.dropWhile_cons, hc]
    rfl
  have hblanks : (c :: cs ++ rest).takeWhile isBlank = [] := by
    rw [List.cons_append, List.takeWhile_cons, hc]
    rfl
  unfold lexemesFrom
  rw [tokensFrom_of_fault hd (by rw [pastBlanks, hblanks]; exact he)]
  rfl

end ReadsFrom

section Spans

variable {opening mark : String} {cs run : List Char}

/-- What ends with a mark that does not stand before is split off before anything that follows. -/
theorem splitPast_of_ends {mark : List Char} (hne : mark ≠ []) (hends : mark <:+ run)
    (hfirst : ¬ mark <:+: run.dropLast) (rest : List Char) : splitPast mark (run ++ rest) = some (run, rest) := by
  obtain ⟨x, rfl⟩ := hends
  induction x with
  | nil =>
    obtain ⟨m, mark, rfl⟩ := List.exists_cons_of_ne_nil hne
    have hprefix : (m :: mark).isPrefixOf (m :: (mark ++ rest)) = true := by
      simp [List.isPrefixOf_iff_prefix]
    rw [List.nil_append, List.cons_append, splitPast, if_pos hprefix]
    simp
  | cons c x ih =>
    have hx : x ++ mark ≠ [] := fun h => hne (List.append_eq_nil_iff.mp h).2
    rw [List.cons_append, List.dropLast_cons_of_ne_nil hx] at hfirst
    have hprefix : ¬ mark.isPrefixOf (c :: (x ++ mark ++ rest)) = true := by
      intro h
      have hdrop : c :: (x ++ mark).dropLast <+: c :: (x ++ mark ++ rest) :=
        List.cons_prefix_cons.mpr ⟨rfl, (List.dropLast_prefix _).trans (List.prefix_append _ _)⟩
      have hlength : mark.length ≤ (c :: (x ++ mark).dropLast).length := by
        simp only [List.length_cons, List.length_dropLast, List.length_append]
        omega
      have := List.prefix_of_prefix_length_le (List.isPrefixOf_iff_prefix.mp h) hdrop hlength
      exact hfirst this.isInfix
    have hmore := ih fun h => hfirst (h.trans (List.suffix_cons c _).isInfix)
    rw [List.cons_append, List.cons_append, splitPast, if_neg hprefix, hmore]
    rfl

/-- Behind its first character a span ends with its mark for the first time. -/
theorem Spans.split (h : Spans opening mark cs) (hopening : opening.toList.head? = some '<')
    (hmark : mark.toList ≠ []) (hhead : mark.toList.head? ≠ some '<') : ∃ run, cs = '<' :: run ∧
      opening.toList.tail <+: run ∧ mark.toList <:+ run ∧
      ∀ rest, splitPast mark.toList (run ++ rest) = some (run, rest) := by
  obtain ⟨o, ho⟩ := List.head?_eq_some_iff.mp hopening
  obtain ⟨hopens, hends, hfirst⟩ := h
  rw [ho] at hopens ⊢
  obtain ⟨x, rfl⟩ := hopens
  rw [List.cons_append] at hends hfirst ⊢
  obtain heq | hends := List.suffix_cons_iff.mp hends
  · rw [heq] at hhead
    exact absurd rfl hhead
  · have hrun : o ++ x ≠ [] := by
      intro hnil
      rw [hnil] at hends
      exact hmark (List.suffix_nil.mp hends)
    rw [List.dropLast_cons_of_ne_nil hrun] at hfirst
    refine ⟨o ++ x, rfl, List.prefix_append o x, hends, splitPast_of_ends hmark hends fun hin => ?_⟩
    exact hfirst (hin.trans (List.suffix_cons '<' _).isInfix)

/-- A piece from an opening to a mark, whatever follows. -/
private theorem readsFrom_of_split (kind : Option TokenKind) {e : ParseError}
    (hsplit : ∀ rest, splitPast mark.toList (run ++ rest) = some (run, rest))
    (hread : ∀ rest, readContent .origin '<' (run ++ rest) = pieceTo mark kind e '<' (run ++ rest)) :
    ReadsFrom false ('<' :: run) (some (kind.toList.map (·, String.ofList ('<' :: run)))) := by
  refine .last run kind (by decide) fun rest => ?_
  rw [readPiece, if_neg Bool.false_ne_true, hread, pieceTo, hsplit]

/-- A comment reads as nothing. -/
theorem readsFrom_comment (h : Comment cs) : ReadsFrom false cs (some []) := by
  obtain ⟨run, rfl, hopens, -, hsplit⟩ := h.split (by decide) (by decide) (by decide)
  refine readsFrom_of_split none hsplit (e := .unterminatedComment .origin) fun rest => ?_
  have hopen : "!--".toList.isPrefixOf (run ++ rest) = true :=
    List.isPrefixOf_iff_prefix.mpr (hopens.trans (List.prefix_append _ _))
  rw [readContent, if_neg (by decide), if_pos hopen]

private theorem readsFrom_data (h : Spans "<![CDATA[" "]]>" cs) : ∃ r, ReadsFrom false cs r := by
  obtain ⟨run, rfl, ⟨x, rfl⟩, -, hsplit⟩ := h.split (by decide) (by decide) (by decide)
  refine ⟨_, readsFrom_of_split (some .text) hsplit (e := .unterminatedString .origin) fun rest => ?_⟩
  rfl

private theorem readsFrom_instruction (h : Spans "<?" "?>" cs) : ∃ r, ReadsFrom false cs r := by
  obtain ⟨run, rfl, ⟨x, rfl⟩, -, hsplit⟩ := h.split (by decide) (by decide) (by decide)
  refine ⟨_, readsFrom_of_split none hsplit (e := .unexpectedEnd (.delimiter "?>")) fun rest => ?_⟩
  rfl

private theorem readsFrom_declaration (h : Spans "<!" ">" cs) (hcomment : ¬ "<!--".toList <+: cs)
    (hdata : ¬ "<![CDATA[".toList <+: cs) : ∃ r, ReadsFrom false cs r := by
  obtain ⟨run, rfl, hopens, hends, hsplit⟩ := h.split (by decide) (by decide) (by decide)
  refine ⟨_, readsFrom_of_split none hsplit (e := .unexpectedEnd (.delimiter ">")) fun rest => ?_⟩
  have hmem : '>' ∈ run := hends.mem (List.mem_singleton.mpr rfl)
  have hmark (m : List Char) (hm : '>' ∉ m) (hnot : ¬ '<' :: m <+: '<' :: run) :
      ¬ m.isPrefixOf (run ++ rest) = true := by
    rw [isPrefixOf_local hm hmem [], List.append_nil, List.isPrefixOf_iff_prefix]
    exact fun hprefix => hnot (List.cons_prefix_cons.mpr ⟨rfl, hprefix⟩)
  rw [readContent, if_neg (by decide), if_neg (hmark "!--".toList (by decide) hcomment),
    if_neg (hmark "![CDATA[".toList (by decide) hdata)]
  obtain ⟨x, rfl⟩ := hopens
  rfl

end Spans

section Tag

variable {body : List Char}

theorem TagBody.tail {c : Char} (h : TagBody (c :: body)) (hc : c ≠ '"' ∧ c ≠ '\'') : TagBody body := by
  cases h with
  | char _ _ more => exact more
  | quoted hquote => exact absurd hquote (not_or.mpr hc)

theorem TagBody.dropName (h : TagBody body) : TagBody (body.dropWhile isNameRest) := by
  induction h with
  | nil => exact .nil
  | @char c cs hend hquote more ih =>
    rw [List.dropWhile_cons]
    split
    · exact ih
    · exact .char hend hquote more
  | @quoted quote value cs hquote hvalue more =>
    have hname : isNameRest quote = false := by
      obtain rfl | rfl := hquote <;> decide +kernel
    rw [List.dropWhile_cons, hname]
    exact .quoted hquote hvalue more

private theorem readPiece_quoted {p : Place} {quote : Char} {value : List Char}
    (hquote : quote = '"' ∨ quote = '\'') (hvalue : quote ∉ value) (rest : List Char) :
    readPiece true p quote (value ++ [quote] ++ rest) = .ok ⟨some .str, quote :: (value ++ [quote]), rest, true⟩ := by
  have hsplit : splitPast [quote] (value ++ [quote] ++ rest) = some (value ++ [quote], rest) := by
    refine splitPast_of_ends (List.cons_ne_nil _ _) (List.suffix_append _ _) ?_ rest
    rwa [List.dropLast_concat, List.singleton_infix_iff]
  obtain rfl | rfl := hquote <;> simp only [readPiece, readTag, hsplit] <;> rfl

private theorem isBlank_of_quote {quote : Char} (h : quote = '"' ∨ quote = '\'') : isBlank quote = false := by
  obtain rfl | rfl := h <;> decide

private theorem takeWhile_of_end {p : Char → Bool} {d : Char} (hd : p d = false) (cs rest : List Char) :
    (cs ++ d :: rest).takeWhile p = cs.takeWhile p ∧ (cs ++ d :: rest).dropWhile p = cs.dropWhile p ++ d :: rest := by
  induction cs with
  | nil => simp [hd]
  | cons c cs ih =>
    simp only [List.cons_append, List.takeWhile_cons, List.dropWhile_cons]
    split <;> simp [ih]

/-- A name ends before the end of the tag. -/
private theorem readPiece_name {p : Place} {c : Char} (hname : isNameStart c = true) (hend : c ≠ '>')
    (hquote : c ≠ '"' ∧ c ≠ '\'') (hslash : c ≠ '/') (hequals : c ≠ '=') (cs rest : List Char) :
    readPiece true p c (cs.takeWhile isNameRest ++ (cs.dropWhile isNameRest ++ ['>'] ++ rest)) =
      .ok ⟨some .ident, c :: cs.takeWhile isNameRest, cs.dropWhile isNameRest ++ ['>'] ++ rest, true⟩ := by
  obtain ⟨htake, hdrop⟩ := takeWhile_of_end (p := isNameRest) (d := '>') (by decide +kernel) cs rest
  have hcs : cs.takeWhile isNameRest ++ (cs.dropWhile isNameRest ++ ['>'] ++ rest) = cs ++ '>' :: rest := by
    rw [List.append_assoc, ← List.append_assoc, List.takeWhile_append_dropWhile]
    rfl
  rw [hcs]
  simp [readPiece, readTag, hend, hslash, hequals, hquote, hname, htake, hdrop]

/-- A slash ends the tag with its bracket, and is a fault before anything else. -/
private theorem TagBody.readsFrom_slash (h : TagBody body) : ∃ r, ReadsFrom true ('/' :: (body ++ ['>'])) r := by
  have hstart : isNameStart '/' = false := by decide +kernel
  have hfault {d : Char} {cs : List Char} (hd : d ≠ '>') : ReadsFrom true ('/' :: (d :: cs ++ ['>'])) none :=
    .fault (by decide) fun rest => ⟨.unexpectedChar '/' .origin, by simp [readPiece, readTag, hd, hstart]⟩
  cases h with
  | nil => exact ⟨_, .last ['>'] (some .punct) (by decide) fun rest => rfl⟩
  | char hend => exact ⟨none, hfault hend⟩
  | quoted hquote => exact ⟨none, hfault (by obtain rfl | rfl := hquote <;> decide)⟩

/-- A tag is read to its end, or has a fault before it. -/
theorem TagBody.readsFrom (h : TagBody body) : ∃ r, ReadsFrom true (body ++ ['>']) r := by
  -- on the length, as a name or a quoted value takes several characters off at once
  induction hn : body.length using Nat.strongRecOn generalizing body with
  | ind n ih =>
    subst hn
    cases h with
    | nil => exact ⟨_, .last [] (some .punct) (by decide) fun rest => rfl⟩
    | @quoted quote value cs hquote hvalue more =>
      obtain ⟨r, hr⟩ := ih cs.length (by simp; omega) more rfl
      have hread := hr.piece _ _ (isBlank_of_quote hquote) fun rest =>
        readPiece_quoted hquote hvalue (cs ++ ['>'] ++ rest)
      rw [List.append_assoc value, List.singleton_append] at hread
      exact ⟨_, by simpa using hread⟩
    | @char c cs hend hquote more =>
      obtain ⟨r, hr⟩ := ih cs.length (by simp) more rfl
      by_cases hblank : isBlank c = true
      · exact ⟨r, hr.blanks [c] (by simpa using hblank)⟩
      have hblank : isBlank c = false := by simpa using hblank
      by_cases hequals : c = '='
      · subst hequals
        exact ⟨_, hr.piece [] (some .punct) hblank fun rest => rfl⟩
      by_cases hslash : c = '/'
      · subst hslash
        exact more.readsFrom_slash
      by_cases hname : isNameStart c
      · have hlength : (cs.dropWhile isNameRest).length < (c :: cs).length :=
          Nat.lt_succ_of_le (List.dropWhile_suffix isNameRest).length_le
        obtain ⟨r, hr⟩ := ih _ hlength more.dropName rfl
        have hread := hr.piece _ _ hblank fun rest => readPiece_name hname hend hquote hslash hequals cs rest
        rw [← List.append_assoc, List.takeWhile_append_dropWhile] at hread
        exact ⟨_, hread⟩
      · refine ⟨none, .fault hblank fun rest => ⟨.unexpectedChar c .origin, ?_⟩⟩
        simp [readPiece, readTag, hend, hslash, hequals, hquote, hname]

private theorem readsFrom_tag (h : TagBody body) (hopen : body.head? ≠ some '!' ∧ body.head? ≠ some '?') :
    ∃ r, ReadsFrom false ('<' :: (body ++ ['>'])) r := by
  obtain ⟨r, hr⟩ := h.readsFrom
  cases body with
  | nil => exact ⟨_, hr.piece [] (some .punct) (by decide) fun rest => rfl⟩
  | cons d body =>
    rw [List.head?_cons, ne_eq, ne_eq, Option.some.injEq, Option.some.injEq] at hopen
    have hread (more : List Char) : readPiece false .origin '<' (d :: more) =
        if d = '/' then .ok ⟨some .punct, ['<', d], more, true⟩ else .ok ⟨some .punct, ['<'], d :: more, true⟩ := by
      have hcomment : ¬ "!--".toList.isPrefixOf (d :: more) = true := by
        show ¬ ('!' == d && "--".toList.isPrefixOf more) = true
        simp [Ne.symm hopen.1]
      have hdata : ¬ "![CDATA[".toList.isPrefixOf (d :: more) = true := by
        show ¬ ('!' == d && "[CDATA[".toList.isPrefixOf more) = true
        simp [Ne.symm hopen.1]
      rw [readPiece, if_neg Bool.false_ne_true, readContent, if_neg (by decide), if_neg hcomment, if_neg hdata]
      simp [hopen.1, hopen.2]
    by_cases hslash : d = '/'
    · subst hslash
      obtain ⟨r, hr⟩ := (h.tail (by decide)).readsFrom
      exact ⟨_, hr.piece ['/'] (some .punct) (by decide) fun rest => hread (body ++ ['>'] ++ rest)⟩
    · refine ⟨_, hr.piece [] (some .punct) (by decide) fun rest => ?_⟩
      have hplain := hread (body ++ ['>'] ++ rest)
      rwa [if_neg hslash] at hplain

end Tag

theorem Item.readsFrom {x : List Char} (h : Item x) : ∃ r, ReadsFrom false x r := by
  cases h with
  | comment h => exact ⟨_, readsFrom_comment h⟩
  | data h => exact readsFrom_data h
  | instruction h => exact readsFrom_instruction h
  | declaration h hcomment hdata => exact readsFrom_declaration h hcomment hdata
  | tag h hopen => exact readsFrom_tag h hopen

theorem Item.head {x : List Char} (h : Item x) : ∃ cs, x = '<' :: cs := by
  have hspan {opening mark : String} (h : Spans opening mark x) (hopening : opening.toList.head? = some '<') :
      ∃ cs, x = '<' :: cs := by
    obtain ⟨o, ho⟩ := List.head?_eq_some_iff.mp hopening
    obtain ⟨y, rfl⟩ := h.opens
    exact ⟨o ++ y, by rw [ho, List.cons_append]⟩
  cases h with
  | comment h => exact hspan h (by decide)
  | data h => exact hspan h (by decide)
  | instruction h => exact hspan h (by decide)
  | declaration h => exact hspan h (by decide)
  | tag => exact ⟨_, rfl⟩

section Data

variable {run rest : List Char}

/-- Character data up to a tag, or up to the end, is one text. -/
theorem lexemesFrom_data (hrun : '<' ∉ run) (hrest : rest.head?.all (· == '<')) :
    lexemesFrom false .origin (run ++ rest) = (lexemesFrom false .origin rest).map (textOf run ++ ·) := by
  have hall {cs : List Char} (hcs : '<' ∉ cs) : (cs ++ rest).takeWhile (· != '<') = cs := by
    rw [List.takeWhile_append_of_pos fun c hc => bne_iff_ne.mpr (ne_of_mem_of_not_mem hc hcs)]
    cases rest with
    | nil => simp
    | cons d rest =>
      obtain rfl : d = '<' := by simpa using hrest
      simp
  cases hd : run.dropWhile isBlank with
  | nil =>
    have hblank := List.dropWhile_eq_nil_iff.mp hd
    rw [textOf_of_blank hblank, lexemesFrom_congr (q := .origin) (List.dropWhile_append_of_pos hblank)]
    simp
  | cons c cs =>
    have hmem : ∀ d ∈ c :: cs, d ≠ '<' := by
      intro d hmem heq
      rw [← hd] at hmem
      exact hrun (heq ▸ (List.dropWhile_suffix isBlank).mem hmem)
    have hc : (c != '<') = true := bne_iff_ne.mpr (hmem c List.mem_cons_self)
    have hcs : '<' ∉ cs := fun h => hmem '<' (List.mem_cons_of_mem c h) rfl
    obtain ⟨gap, hgap, hblank⟩ := trimEnd_blanks cs
    have hd' : (run ++ rest).dropWhile isBlank = c :: (cs ++ rest) := by
      rw [List.dropWhile_append, hd]
      rfl
    have hread : readPiece false .origin c (cs ++ rest) =
        .ok ⟨some .text, c :: trimEnd cs, gap ++ rest, false⟩ := by
      have hdrop : (cs ++ rest).drop (trimEnd cs).length = gap ++ rest := by
        have hsplit : cs ++ rest = trimEnd cs ++ (gap ++ rest) := by rw [← List.append_assoc, ← hgap]
        rw [hsplit, List.drop_left]
      rw [readPiece, if_neg Bool.false_ne_true, readContent, if_pos hc, hall hcs]
      simp only [hdrop]
    rw [lexemesFrom_of_piece hd' hread, textOf, hd,
      lexemesFrom_congr (q := .origin) (List.dropWhile_append_of_pos hblank)]
    rfl

theorem Passage.readsFrom {cs : List Char} (h : Passage cs) : ∃ r, ReadsFrom false cs r := by
  induction h with
  | nil => exact ⟨_, .nil⟩
  | @item data x cs hdata hx more ih =>
    obtain ⟨r, hr⟩ := ih
    obtain ⟨r', hr'⟩ := hx.readsFrom
    obtain ⟨y, rfl⟩ := hx.head
    have hread := hr'.append hr
    refine ⟨(r'.bind fun ls => r.map (ls ++ ·)).map (textOf data ++ ·), fun rest => ?_⟩
    rw [List.append_assoc, lexemesFrom_data hdata (by simp), hread]
    cases r'.bind fun ls => r.map (ls ++ ·) <;> simp [Function.comp_def]

end Data

/-- A comment in character data reads as nothing, but what it stands between is read apart. -/
theorem lexemes?_of_inserted {before data comment after : List Char} {ls : List Lexeme} (hbefore : Passage before)
    (hdata : '<' ∉ data) (hcomment : Comment comment)
    (h : Language.markup.lexemes? (before ++ (data ++ after)) = some ls) :
    ∃ u v, ls = u ++ (textOf (data ++ after.takeWhile (· != '<')) ++ v) ∧
      Language.markup.lexemes? (before ++ (data ++ (comment ++ after))) =
        some (u ++ (textOf data ++ (textOf (after.takeWhile (· != '<')) ++ v))) := by
  -- up to the passage's end and from the next tag on the two texts read alike
  obtain ⟨r, hr⟩ := hbefore.readsFrom
  have hafter := List.takeWhile_append_dropWhile (p := (· != '<')) (l := after)
  have hhead := List.head?_dropWhile_not (· != '<') after
  have hmore : '<' ∉ after.takeWhile (· != '<') := fun hmem => by
    simpa using List.all_eq_true.mp List.all_takeWhile _ hmem
  generalize after.takeWhile (· != '<') = more at hafter hmore ⊢
  generalize after.dropWhile (· != '<') = rest at hafter hhead
  subst hafter
  have hrest : rest.head?.all (· == '<') := by
    cases rest with
    | nil => rfl
    | cons d rest => simpa using hhead
  have hwhole : '<' ∉ data ++ more := fun hmem => (List.mem_append.mp hmem).elim hdata hmore
  rw [lexemes?_eq _ .origin, ← List.append_assoc data, hr, lexemesFrom_data hwhole hrest] at h
  obtain ⟨u, rfl, hu⟩ := Option.bind_eq_some_iff.mp h
  rw [Option.map_map] at hu
  obtain ⟨v, hv, rfl⟩ := Option.map_eq_some_iff.mp hu
  obtain ⟨y, hy⟩ := (Item.comment hcomment).head
  have hopen : (comment ++ (more ++ rest)).head?.all (· == '<') := by simp [hy]
  refine ⟨u, v, rfl, ?_⟩
  rw [lexemes?_eq _ .origin, hr, lexemesFrom_data hdata hopen, readsFrom_comment hcomment,
    lexemesFrom_data hmore hrest, hv]
  rfl

end ModWeave.Markup
