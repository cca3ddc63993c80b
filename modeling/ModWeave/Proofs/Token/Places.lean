import ModWeave.Proofs.Token.Passage

/-!
A document that reads is written as a passage and character data, so that each place of it is in character data or
inside an item.
-/
namespace ModWeave.Markup

open Text

/-- A place in an item, behind its first character and before its last. -/
def Inside (before after : List Char) : Prop :=
  ∃ gone data x y rest, before = gone ++ (data ++ x) ∧ after = y ++ rest ∧ Passage gone ∧ '<' ∉ data ∧
    Item (x ++ y) ∧ x ≠ [] ∧ y ≠ []

/-- A place in character data, or at its start. -/
def Outside (before : List Char) : Prop :=
  ∃ gone data, before = gone ++ data ∧ Passage gone ∧ '<' ∉ data

variable {cs : List Char} {p : Place} {ts : List Token}

/-- Nothing but a quote or the bracket at the end has a meaning of its own in a tag. -/
theorem TagBody.plain {run : List Char} (hrun : ∀ c ∈ run, c ≠ '>' ∧ c ≠ '"' ∧ c ≠ '\'') (h : TagBody cs) :
    TagBody (run ++ cs) := by
  induction run with
  | nil => exact h
  | cons c run ih =>
    rw [List.forall_mem_cons] at hrun
    exact .char hrun.1.1 hrun.1.2 (ih hrun.2)

private theorem plain_of_blank {c : Char} (h : isBlank c = true) : c ≠ '>' ∧ c ≠ '"' ∧ c ≠ '\'' := by
  refine ⟨?_, ?_, ?_⟩ <;> rintro rfl <;> exact absurd h (by decide)

private theorem plain_of_name {c : Char} (h : isNameRest c = true) : c ≠ '>' ∧ c ≠ '"' ∧ c ≠ '\'' := by
  refine ⟨?_, ?_, ?_⟩ <;> rintro rfl <;> exact absurd h (by decide +kernel)

/-- A piece inside a tag ends the tag, or what stands behind it in the tag may stand behind the piece. -/
private theorem readTag_cases {c : Char} {rest : List Char} {piece : Piece} (h : readTag p c rest = .ok piece) :
    (piece.inTag = false ∧ ∃ body, c :: rest = body ++ '>' :: piece.rest ∧ TagBody body) ∨
    (piece.inTag = true ∧ ∃ run, c :: rest = run ++ piece.rest ∧ ∀ body, TagBody body → TagBody (run ++ body)) := by
  unfold readTag at h
  split at h
  · rename_i hc
    cases h
    exact .inl ⟨rfl, [], by simp [hc], .nil⟩
  split at h
  · rename_i hc
    cases h
    rw [Bool.and_eq_true, decide_eq_true_eq, beq_iff_eq] at hc
    obtain ⟨rest, rfl⟩ := List.head?_eq_some_iff.mp hc.2
    exact .inl ⟨rfl, ['/'], by simp [hc.1], .char (by decide) (by decide) .nil⟩
  split at h
  · rename_i hc
    cases h
    refine .inr ⟨rfl, ['='], by simp [hc], fun body hbody => ?_⟩
    exact .char (by decide) (by decide) hbody
  split at h
  · rename_i hc
    rw [Bool.or_eq_true, decide_eq_true_eq, decide_eq_true_eq] at hc
    split at h
    · rename_i run after hsplit
      cases h
      obtain ⟨⟨value, rfl⟩, hfirst⟩ := splitPast_ends (List.cons_ne_nil _ _) hsplit
      rw [List.dropLast_concat, List.singleton_infix_iff] at hfirst
      refine .inr ⟨rfl, c :: (value ++ [c]), by simp [← splitPast_append hsplit], fun body hbody => ?_⟩
      simpa using TagBody.quoted hc hfirst hbody
    · cases h
  split at h
  · rename_i hname
    cases h
    refine .inr ⟨rfl, c :: rest.takeWhile isNameRest, by simp, fun body hbody => .plain ?_ hbody⟩
    have hc : isNameRest c = true := by simp [isNameRest, hname]
    have hall : ∀ d ∈ rest.takeWhile isNameRest, isNameRest d = true := List.all_eq_true.mp List.all_takeWhile
    exact fun d hd => plain_of_name ((List.mem_cons.mp hd).elim (fun heq => heq ▸ hc) (hall d))
  · cases h

/-- What is read inside a tag comes to the end of the tag. -/
theorem exists_tagBody (h : tokensFrom true p cs = .ok ts) : ∃ body rest q more, cs = body ++ '>' :: rest ∧
    TagBody body ∧ tokensFrom false q rest = .ok more := by
  induction hn : cs.length using Nat.strongRecOn generalizing p cs ts with
  | ind n ih =>
    subst hn
    obtain ⟨-, hin, -⟩ | ⟨c, rest, piece, more, hd, hread, hmore, rfl⟩ := tokensFrom_eq_ok h
    · cases hin
    obtain ⟨blanks, rfl, hblanks, -, -, -⟩ := blanks_split hd
    have hplain := fun c hc => plain_of_blank (hblanks c hc)
    obtain ⟨hin, body, hbody, htag⟩ | ⟨hin, run, hrun, hstay⟩ := readTag_cases hread
    · rw [hin] at hmore
      exact ⟨blanks ++ body, piece.rest, _, more, by simp [hbody], .plain hplain htag, hmore⟩
    · rw [hin] at hmore
      have hlength : piece.rest.length < (blanks ++ c :: rest).length := by
        obtain ⟨tail, -, rfl⟩ := readPiece_append hread
        simp only [List.length_append, List.length_cons]
        omega
      obtain ⟨body, rest', q, more', hrest, htag, hmore'⟩ := ih _ hlength hmore rfl
      exact ⟨blanks ++ (run ++ body), rest', q, more', by simp [hrun, hrest], .plain hplain (hstay body htag), hmore'⟩

theorem Outside.prepend {run : List Char} (hrun : '<' ∉ run) (h : Outside cs) : Outside (run ++ cs) := by
  obtain ⟨gone, data, rfl, hgone, hdata⟩ := h
  cases hgone with
  | nil => exact ⟨[], run ++ data, rfl, .nil, fun h => (List.mem_append.mp h).elim hrun hdata⟩
  | @item data' x rest hdata' hx more =>
    refine ⟨run ++ data' ++ (x ++ rest), data, by simp, .item ?_ hx more, hdata⟩
    exact fun h => (List.mem_append.mp h).elim hrun hdata'

theorem Outside.item {x : List Char} (hx : Item x) (h : Outside cs) : Outside (x ++ cs) := by
  obtain ⟨gone, data, rfl, hgone, hdata⟩ := h
  exact ⟨x ++ gone, data, (List.append_assoc ..).symm, .item List.not_mem_nil hx hgone, hdata⟩

private theorem spans_of_pieceTo (opening : String) {mark : String} {o rest : List Char} {kind : Option TokenKind}
    {e : ParseError} {piece : Piece} (h : pieceTo mark kind e '<' rest = .ok piece)
    (hopening : opening.toList = '<' :: o) (ho : o <+: rest) (hapart : ¬ mark.toList <:+: o)
    (hmark : mark.toList ≠ []) (hhead : mark.toList.head? ≠ some '<') :
    piece.inTag = false ∧ Spans opening mark piece.chars ∧ piece.chars <+: '<' :: rest := by
  unfold pieceTo at h
  split at h
  · rename_i run after hsplit
    cases h
    obtain ⟨hends, hfirst⟩ := splitPast_ends hmark hsplit
    have hrun : run <+: rest := ⟨after, splitPast_append hsplit⟩
    -- a run shorter than the opening would have the mark inside the opening
    have hopens : o <+: run := (List.prefix_or_prefix_of_prefix ho hrun).resolve_right fun hshort =>
      hapart (hends.isInfix.trans hshort.isInfix)
    have hne : run ≠ [] := by
      rintro rfl
      exact hmark (List.suffix_nil.mp hends)
    refine ⟨rfl, ⟨?_, hends.trans (List.suffix_cons '<' run), fun hin => ?_⟩, List.cons_prefix_cons.mpr ⟨rfl, hrun⟩⟩
    · rw [hopening]
      exact List.cons_prefix_cons.mpr ⟨rfl, hopens⟩
    · rw [List.dropLast_cons_of_ne_nil hne] at hin
      obtain hprefix | hin := List.infix_cons_iff.mp hin
      · obtain ⟨m, mark', hm⟩ := List.exists_cons_of_ne_nil hmark
        rw [hm] at hprefix hhead
        exact hhead (congrArg some (List.cons_prefix_cons.mp hprefix).1)
      · exact hfirst hin
  · cases h

/-- A piece between tags is character data, an item, or the opening of a tag. -/
private theorem readContent_cases {c : Char} {rest : List Char} {piece : Piece}
    (h : readContent p c rest = .ok piece) :
    (piece.inTag = false ∧ ('<' ∉ piece.chars ∨ Item piece.chars)) ∨
    (piece.inTag = true ∧ ∃ run, c :: rest = '<' :: (run ++ piece.rest) ∧ ∀ body after, piece.rest = body ++ after →
      TagBody body → Item ('<' :: (run ++ body ++ ['>']))) := by
  unfold readContent at h
  split at h
  · rename_i hc
    cases h
    refine .inl ⟨rfl, .inl fun hmem => ?_⟩
    obtain heq | hmem := List.mem_cons.mp hmem
    · rw [← heq] at hc
      cases hc
    · have hmem := (trimEnd_isPrefix _).mem hmem
      simpa using List.all_eq_true.mp List.all_takeWhile _ hmem
  rename_i hc
  obtain rfl : c = '<' := by simpa using hc
  split at h
  · rename_i hopen
    obtain ⟨hin, hspans, -⟩ := spans_of_pieceTo "<!--" h rfl (List.isPrefixOf_iff_prefix.mp hopen)
      (by decide) (by decide) (by decide)
    exact .inl ⟨hin, .inr (.comment hspans)⟩
  rename_i hcomment
  split at h
  · rename_i hopen
    obtain ⟨hin, hspans, -⟩ := spans_of_pieceTo "<![CDATA[" h rfl (List.isPrefixOf_iff_prefix.mp hopen)
      (by decide) (by decide) (by decide)
    exact .inl ⟨hin, .inr (.data hspans)⟩
  rename_i hdata
  split at h
  · rename_i hopen
    obtain ⟨rest, rfl⟩ := List.head?_eq_some_iff.mp (beq_iff_eq.mp hopen)
    obtain ⟨hin, hspans, -⟩ := spans_of_pieceTo "<?" h rfl (List.prefix_append ['?'] rest)
      (by decide) (by decide) (by decide)
    exact .inl ⟨hin, .inr (.instruction hspans)⟩
  rename_i hquestion
  split at h
  · rename_i hopen
    obtain ⟨rest, rfl⟩ := List.head?_eq_some_iff.mp (beq_iff_eq.mp hopen)
    obtain ⟨hin, hspans, hchars⟩ := spans_of_pieceTo "<!" h rfl (List.prefix_append ['!'] rest)
      (by decide) (by decide) (by decide)
    have hnot {mark : List Char} (hmark : ¬ mark.isPrefixOf ('!' :: rest) = true) : ¬ '<' :: mark <+: piece.chars :=
      fun hstart => hmark (List.isPrefixOf_iff_prefix.mpr (List.cons_prefix_cons.mp (hstart.trans hchars)).2)
    exact .inl ⟨hin, .inr (.declaration hspans (hnot hcomment) (hnot hdata))⟩
  rename_i hbang
  split at h
  · rename_i hopen
    cases h
    obtain ⟨rest, rfl⟩ := List.head?_eq_some_iff.mp (beq_iff_eq.mp hopen)
    refine .inr ⟨rfl, ['/'], rfl, fun body after hbody htag => .tag (.char (by decide) (by decide) htag) ?_⟩
    simp
  · cases h
    refine .inr ⟨rfl, [], rfl, fun body after hbody htag => .tag htag ?_⟩
    obtain rfl : rest = body ++ after := hbody
    cases body with
    | nil => simp
    | cons d body => simpa [and_comm] using And.intro hquestion hbang

/-- What is read is written as items and character data. -/
theorem outside_of_tokensFrom (h : tokensFrom false p cs = .ok ts) : Outside cs := by
  induction hn : cs.length using Nat.strongRecOn generalizing p cs ts with
  | ind n ih =>
    subst hn
    obtain ⟨hd, -, -⟩ | ⟨c, rest, piece, more, hd, hread, hmore, rfl⟩ := tokensFrom_eq_ok h
    · refine ⟨[], cs, rfl, .nil, fun hmem => ?_⟩
      exact absurd (List.dropWhile_eq_nil_iff.mp hd _ hmem) (by decide)
    obtain ⟨blanks, rfl, hblanks, -, -, -⟩ := blanks_split hd
    have hplain : '<' ∉ blanks := fun hmem => absurd (hblanks _ hmem) (by decide)
    obtain ⟨tail, hchars, hrest⟩ := readPiece_append hread
    have hcs : c :: rest = piece.chars ++ piece.rest := by rw [hchars, ← hrest, List.cons_append]
    refine .prepend hplain ?_
    have hlength : piece.rest.length < (blanks ++ c :: rest).length := by
      simp only [← hrest, List.length_append, List.length_cons]
      omega
    obtain ⟨hin, hdata | hitem⟩ | ⟨hin, run, hrun, htag⟩ := readContent_cases hread
    · rw [hin] at hmore
      exact hcs ▸ (ih _ hlength hmore rfl).prepend hdata
    · rw [hin] at hmore
      exact hcs ▸ (ih _ hlength hmore rfl).item hitem
    · rw [hin] at hmore
      obtain ⟨body, rest', q, more', hbody, hend, hmore'⟩ := exists_tagBody hmore
      have hlength' : rest'.length < (blanks ++ c :: rest).length := by
        refine Nat.lt_trans ?_ hlength
        rw [hbody, List.length_append, List.length_cons]
        omega
      have hsplit : c :: rest = '<' :: (run ++ body ++ ['>']) ++ rest' := by rw [hrun, hbody]; simp
      exact hsplit ▸ (ih _ hlength' hmore' rfl).item (htag body _ hbody hend)

/-- Of a document a place is inside an item or in character data. -/
theorem inside_or_outside {before after gone data : List Char} (hgone : Passage gone) (hdata : '<' ∉ data)
    (h : before ++ after = gone ++ data) : Inside before after ∨ Outside before := by
  induction hgone generalizing before with
  | nil =>
    refine .inr ⟨[], before, rfl, .nil, fun hmem => hdata ?_⟩
    rw [List.nil_append] at h
    exact h ▸ List.mem_append_left _ hmem
  | @item data' x cs hdata' hx more ih =>
    rw [List.append_assoc, List.append_assoc] at h
    obtain ⟨u, rfl, -⟩ | ⟨u, rfl, hu⟩ := List.append_eq_append_iff.mp h
    · exact .inr ⟨[], before, rfl, .nil, fun hmem => hdata' (List.mem_append_left _ hmem)⟩
    -- the place is behind the item, or in it, where both of its ends are outside
    obtain ⟨v, rfl, hv⟩ | ⟨v, rfl, rfl⟩ := List.append_eq_append_iff.mp hu
    · obtain ⟨gone, data, y, z, rest, rfl, hafter, hgone, hdata, hy, hne⟩ | houtside := ih hv.symm
      · exact .inl ⟨data' ++ (x ++ gone), data, y, z, rest, by simp, hafter, .item hdata' hx hgone, hdata, hy, hne⟩
      · exact .inr ((houtside.item hx).prepend hdata')
    · by_cases hu : u = []
      · subst hu
        exact .inr ⟨[], data', by simp, .nil, hdata'⟩
      by_cases hv : v = []
      · subst hv
        rw [List.append_nil] at hx
        exact .inr ⟨data' ++ (u ++ []), [], by simp, .item hdata' hx .nil, List.not_mem_nil⟩
      · exact .inl ⟨[], data', u, v, cs ++ data, rfl, rfl, .nil, hdata', hx, hu, hv⟩

end ModWeave.Markup
