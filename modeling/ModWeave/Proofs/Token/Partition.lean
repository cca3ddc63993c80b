import Mathlib.Data.List.Induction
import Mathlib.Data.List.Infix
import ModWeave.Proofs.Token.MarkupScan
import ModWeave.Proofs.Token.Respacing
import ModWeave.Proofs.Token.ScriptScan

/-!
The tokens of a text part it: they stand in it one behind the other, with filler between them, and every place is told
by what stands before it.
-/
namespace ModWeave

open Text

/-- Where a text has come to. -/
theorem Text.Place.advance_origin (cs : List Char) :
    Place.origin.advance cs =
      ⟨byteLength cs, cs.count '\n' + 1, (cs.reverse.takeWhile (· != '\n')).length + 1⟩ := by
  induction cs using List.reverseRecOn with
  | nil => rfl
  | append_singleton cs c ih =>
    rw [Place.advance_append, ih, Place.advance_cons, Place.advance_nil, Place.after, List.reverse_append]
    by_cases hc : c = '\n'
    · subst hc
      simp
    · have hpos : (c != '\n') = true := by simpa using hc
      rw [if_neg hc]
      simp [hc]

/-- Tokens that stand in this order in a text that starts at a place, with fillings between them and a last one behind
them. -/
inductive Parted (Fills Ends : List Char → Prop) : Place → List Char → List Token → Prop
  | last {p : Place} {gap : List Char} (h : Ends gap) : Parted Fills Ends p gap []
  | token {p : Place} {gap lexeme after : List Char} {kind : TokenKind} {ts : List Token} (h : Fills gap)
      (hne : lexeme ≠ []) (more : Parted Fills Ends ((p.advance gap).advance lexeme) after ts) :
      Parted Fills Ends p (gap ++ (lexeme ++ after)) (⟨kind, String.ofList lexeme, p.advance gap⟩ :: ts)

/-- Something passed over goes before the first filling. -/
theorem Parted.behind {Fills Ends : List Char → Prop} {p : Place} {gap cs : List Char} {ts : List Token}
    (h : Parted Fills Ends (p.advance gap) cs ts) (hfill : ∀ {x}, Fills x → Fills (gap ++ x))
    (hend : ∀ {x}, Ends x → Ends (gap ++ x)) : Parted Fills Ends p (gap ++ cs) ts := by
  cases h with
  | last h => exact .last (hend h)
  | @token _ gap' lexeme after kind ts h hne more =>
    rw [← Place.advance_append p gap gap'] at more ⊢
    rw [← List.append_assoc]
    exact .token (hfill h) hne more

/-- The tokens of a source part its text: between them and before the first is filling, behind the last an end. -/
structure Source.Parts (s : Source) (Fills Ends : List Char → Prop) : Prop where
  boundary {i : Nat} {t : Token} : s.tokens[i]? = some t → s.Boundary t.start ∧ s.Boundary t.stop
  nonempty {i : Nat} {t : Token} : s.tokens[i]? = some t → t.start < t.stop
  order {i j : Nat} {t u : Token} : i < j → s.tokens[i]? = some t → s.tokens[j]? = some u → t.stop ≤ u.start
  lexeme {i : Nat} {t : Token} : s.tokens[i]? = some t → s.textBetween? t.start t.stop = some t.lexeme.toList
  filled {i : Nat} {t : Token} : s.tokens[i]? = some t →
    ∃ gap, s.textBetween? (s.endAt i) t.start = some gap ∧ Fills gap
  ended : ∃ gap, s.textBetween? (s.endAt s.tokens.length) (byteLength s.text) = some gap ∧ Ends gap
  place {i : Nat} {t : Token} : s.tokens[i]? = some t → ∃ before, s.textBetween? 0 t.start = some before ∧
    t.place.line = before.count '\n' + 1 ∧
    t.place.column = (before.reverse.takeWhile (· != '\n')).length + 1

namespace Source

variable {s : Source} {Fills Ends : List Char → Prop} {i : Nat} {t : Token}

/-- Behind the first tokens the rest of the text is parted by the rest of the tokens. -/
theorem parted_drop (h : Parted Fills Ends .origin s.text s.tokens) (hi : i ≤ s.tokens.length) :
    ∃ before after, s.text = before ++ after ∧ byteLength before = s.endAt i ∧
      Parted Fills Ends (Place.origin.advance before) after (s.tokens.drop i) := by
  induction i with
  | zero => exact ⟨[], s.text, rfl, rfl, h⟩
  | succ i ih =>
    obtain ⟨before, after, htext, -, hparted⟩ := ih (Nat.le_of_succ_le hi)
    rw [List.drop_eq_getElem_cons hi] at hparted
    have hget := List.getElem?_eq_getElem hi
    revert hparted hget
    generalize s.tokens[i] = t
    intro hparted hget
    cases hparted with
    | @token _ gap lexeme after kind _ hfill hne more =>
      refine ⟨before ++ (gap ++ lexeme), after, by simp [htext], ?_, ?_⟩
      · rw [endAt_succ_of_getElem hget]
        simp [Token.stop, Place.advance_offset, Place.origin, Nat.add_assoc]
      · rwa [Place.advance_append, Place.advance_append]

/-- A token, what fills the text before it, and its place. -/
theorem split_of_parted (h : Parted Fills Ends .origin s.text s.tokens) (ht : s.tokens[i]? = some t) :
    ∃ before gap after, s.text = before ++ (gap ++ (t.lexeme.toList ++ after)) ∧ byteLength before = s.endAt i ∧
      Fills gap ∧ t.place = Place.origin.advance (before ++ gap) := by
  obtain ⟨hi, hget⟩ := List.getElem?_eq_some_iff.mp ht
  obtain ⟨before, after, htext, hend, hparted⟩ := parted_drop h (Nat.le_of_lt hi)
  rw [List.drop_eq_getElem_cons hi, hget] at hparted
  cases hparted with
  | @token _ gap lexeme after kind _ hfill hne more =>
    refine ⟨before, gap, after, ?_, hend, hfill, (Place.advance_append ..).symm⟩
    rw [htext, String.toList_ofList]

theorem parts_of_parted (h : Parted Fills Ends .origin s.text s.tokens) (hlaid : s.LaidOut) : s.Parts Fills Ends where
  boundary := fun {i} {t} ht => by
    rw [← startAt_of_getElem ht, ← endAt_succ_of_getElem ht]
    exact ⟨hlaid.boundary_startAt i, hlaid.boundary_endAt (i + 1)⟩
  nonempty := fun {i} {t} ht => by
    rw [← startAt_of_getElem ht, ← endAt_succ_of_getElem ht]
    exact hlaid.startAt_lt_endAt (List.getElem?_eq_some_iff.mp ht).1
  order := fun {i} {j} {t} {u} hij ht hu => by
    rw [← endAt_succ_of_getElem ht, ← startAt_of_getElem hu]
    exact hlaid.endAt_le_startAt_of_le hij
  lexeme := fun {i} {t} ht => by
    obtain ⟨before, gap, after, htext, -, -, hplace⟩ := split_of_parted h ht
    have hstart : t.start = byteLength (before ++ gap) := by
      rw [Token.start, hplace, Place.advance_offset]
      exact Nat.zero_add _
    rw [Source.textBetween?, htext, Token.stop, ← Token.start, hstart, ← List.append_assoc, ← List.append_assoc]
    exact slice?_append _ _ _
  filled := fun {i} {t} ht => by
    obtain ⟨before, gap, after, htext, hend, hfill, hplace⟩ := split_of_parted h ht
    have hstart : t.start = byteLength before + byteLength gap := by
      rw [Token.start, hplace, Place.advance_offset, byteLength_append]
      exact Nat.zero_add _
    refine ⟨gap, ?_, hfill⟩
    rw [Source.textBetween?, htext, ← hend, hstart, ← List.append_assoc]
    exact slice?_append _ _ _
  ended := by
    obtain ⟨before, after, htext, hend, hparted⟩ := parted_drop h (Nat.le_refl _)
    rw [List.drop_length] at hparted
    cases hparted with
    | last hlast =>
      refine ⟨after, ?_, hlast⟩
      rw [Source.textBetween?, ← hend, htext, byteLength_append]
      simpa using slice?_append before after []
  place := fun {i} {t} ht => by
    obtain ⟨before, gap, after, htext, -, -, hplace⟩ := split_of_parted h ht
    refine ⟨before ++ gap, ?_, ?_, ?_⟩
    · rw [Source.textBetween?, htext, Token.start, hplace, Place.advance_offset, ← List.append_assoc]
      exact slice?_append [] (before ++ gap) _
    · rw [hplace, Place.advance_origin]
    · rw [hplace, Place.advance_origin]

end Source

namespace Script

/-- What may stand behind the last token: a line comment need not end there. -/
def Trailer (cs : List Char) : Prop :=
  Filler cs ∨ ∃ gap comment, cs = gap ++ '/' :: '/' :: comment ∧ Filler gap ∧ '\n' ∉ comment

theorem Trailer.behind {gap cs : List Char} (hgap : ∀ {x}, Filler x → Filler (gap ++ x)) (h : Trailer cs) :
    Trailer (gap ++ cs) := by
  obtain h | ⟨x, comment, rfl, hx, hcomment⟩ := h
  · exact .inl (hgap h)
  · exact .inr ⟨gap ++ x, comment, (List.append_assoc ..).symm, hgap hx, hcomment⟩

private theorem concat_cases (run : List Char) {x cs : List Char} {c : Char} (h : run ++ x = cs ++ [c]) :
    (x = [] ∧ run = cs ++ [c]) ∨ ∃ more, cs = run ++ more ∧ x = more ++ [c] := by
  obtain rfl | ⟨more, d, rfl⟩ := List.eq_nil_or_concat x
  · exact .inl ⟨rfl, by rwa [List.append_nil] at h⟩
  · rw [List.concat_eq_append, ← List.append_assoc] at h
    obtain ⟨hcs, hd⟩ := List.append_inj' h rfl
    exact .inr ⟨more, hcs.symm, by rw [List.concat_eq_append, hd]⟩

/-- What is filler before a line break may stand at the end of a text. -/
theorem Filler.trailer {x cs : List Char} (h : Filler x) (hx : x = cs ++ ['\n']) : Trailer cs := by
  induction h generalizing cs with
  | nil => simp at hx
  | @blank c x hc more ih =>
    obtain ⟨rfl, hcs⟩ | ⟨cs, rfl, rfl⟩ := concat_cases [c] hx
    · obtain rfl : cs = [] := List.eq_nil_of_length_eq_zero (Nat.succ.inj (by simpa using congrArg List.length hcs.symm))
      exact .inl .nil
    · exact (ih rfl).behind (.blank hc)
  | @lineComment body x hbody more ih =>
    obtain ⟨rfl, hcs⟩ | ⟨cs, rfl, rfl⟩ := concat_cases ('/' :: '/' :: (body ++ ['\n'])) (by simpa using hx)
    · have hcs' : '/' :: '/' :: body ++ ['\n'] = cs ++ ['\n'] := hcs
      obtain rfl := List.append_cancel_right hcs'
      exact .inr ⟨[], body, rfl, .nil, hbody⟩
    · refine (ih rfl).behind fun h => ?_
      simpa using Filler.lineComment hbody h
  | @blockComment body x hbody more ih =>
    obtain ⟨rfl, hcs⟩ | ⟨cs, rfl, rfl⟩ := concat_cases ('/' :: '*' :: (body ++ ['*', '/'])) (by simpa using hx)
    · have hlast := congrArg List.reverse hcs
      simp at hlast
    · refine (ih rfl).behind fun h => ?_
      simpa using Filler.blockComment hbody h

/-- What opens the comment that the reader stands in. -/
def Gap.opening : Gap → List Char
  | .blanks => []
  | .lineComment => ['/', '/']
  | .blockComment _ => ['/', '*']

theorem Filler.lineComment_cons {c : Char} {x : List Char} (h : Filler ('/' :: '/' :: x)) (hc : c ≠ '\n') :
    Filler ('/' :: '/' :: c :: x) := by
  cases h with
  | blank hb => exact absurd hb (by decide)
  | @lineComment body x hbody more =>
    have hbody : '\n' ∉ c :: body := List.not_mem_cons_of_ne_of_not_mem (Ne.symm hc) hbody
    exact .lineComment hbody more

theorem Filler.blockComment_cons {c : Char} {x : List Char} (h : Filler ('/' :: '*' :: x))
    (hc : c = '*' → x.head? ≠ some '/') : Filler ('/' :: '*' :: c :: x) := by
  cases h with
  | blank hb => exact absurd hb (by decide)
  | @blockComment body x hbody more =>
    have hbody : ¬ ['*', '/'] <:+: c :: body := by
      intro hin
      obtain hprefix | hin := List.infix_cons_iff.mp hin
      · obtain ⟨rfl, hslash⟩ := List.cons_prefix_cons.mp hprefix
        obtain ⟨body, rfl⟩ := hslash
        exact hc rfl rfl
      · exact hbody hin
    exact .blockComment hbody more

/-- What is passed before a token is filler, and what is passed before the end is if a line break follows. -/
theorem filler_of_skipGap {g : Gap} {p q : Place} {cs rest : List Char} (h : skipGap g p cs = .ok (q, rest)) :
    ∃ gap, cs = gap ++ rest ∧ q = p.advance gap ∧
      Filler (g.opening ++ (gap ++ if rest.isEmpty then ['\n'] else [])) := by
  fun_induction skipGap g p cs with
  | case1 p cs ih =>
    obtain ⟨gap, rfl, rfl, hfill⟩ := ih h
    exact ⟨'/' :: '/' :: gap, rfl, rfl, hfill⟩
  | case2 p cs ih =>
    obtain ⟨gap, rfl, rfl, hfill⟩ := ih h
    exact ⟨'/' :: '*' :: gap, rfl, rfl, hfill⟩
  | case3 p c cs h1 h2 hb ih =>
    obtain ⟨gap, rfl, rfl, hfill⟩ := ih h
    exact ⟨c :: gap, rfl, rfl, .blank hb hfill⟩
  | case4 p c cs h1 h2 hb =>
    cases h
    exact ⟨[], rfl, rfl, .nil⟩
  | case5 p =>
    cases h
    exact ⟨[], rfl, rfl, .blank (by decide) .nil⟩
  | case6 p c cs ih =>
    obtain ⟨gap, rfl, rfl, hfill⟩ := ih h
    refine ⟨c :: gap, rfl, rfl, ?_⟩
    by_cases hc : c = '\n'
    · subst hc
      exact .lineComment List.not_mem_nil hfill
    · rw [if_neg hc] at hfill
      exact hfill.lineComment_cons hc
  | case7 p =>
    cases h
    exact ⟨[], rfl, rfl, .lineComment List.not_mem_nil .nil⟩
  | case8 p o cs ih =>
    obtain ⟨gap, rfl, rfl, hfill⟩ := ih h
    exact ⟨'*' :: '/' :: gap, rfl, rfl, .blockComment (by simp) hfill⟩
  | case9 o p c cs h1 ih =>
    obtain ⟨gap, rfl, rfl, hfill⟩ := ih h
    refine ⟨c :: gap, rfl, rfl, hfill.blockComment_cons fun hc hhead => ?_⟩
    cases gap with
    | nil => cases hr : rest.isEmpty <;> simp [hr] at hhead
    | cons d gap =>
      obtain rfl : d = '/' := by simpa using hhead
      exact h1 _ hc rfl
  | case10 => cases h

/-- The tokens of a script part it. -/
theorem parted_of_tokensFrom {p : Place} {cs : List Char} {ts : List Token} (h : tokensFrom p cs = .ok ts) :
    Parted Filler Trailer p cs ts := by
  induction ts generalizing p cs with
  | nil =>
    obtain ⟨-, q, hgap⟩ | ⟨q, c, rest, kind, lexeme, after, more, -, -, -, hts⟩ := tokensFrom_eq_ok h
    · obtain ⟨gap, rfl, -, hfill⟩ := filler_of_skipGap hgap
      rw [List.append_nil]
      exact .last (hfill.trailer rfl)
    · cases hts
  | cons t ts ih =>
    obtain ⟨hts, -⟩ | ⟨q, c, rest, kind, lexeme, after, more, hgap, htoken, hmore, hts⟩ := tokensFrom_eq_ok h
    · cases hts
    · cases hts
      obtain ⟨gap, rfl, rfl, hfill⟩ := filler_of_skipGap hgap
      obtain ⟨tail, rfl, rfl⟩ := readToken_append htoken
      have hfill : Filler gap := by simpa [Gap.opening] using hfill
      exact .token hfill (List.cons_ne_nil c tail) (ih hmore)

end Script

namespace Markup

/-- What opens a comment or an instruction and is taken for its end as well: the two share characters. -/
def stubs : List (List Char) := ["<!-->", "<!--->", "<?>"].map String.toList

/-- Blanks, and comments, instructions and declarations, each complete; stubs if they are allowed. -/
inductive Filler (allowed : List (List Char)) : List Char → Prop
  | nil : Filler allowed []
  | blank {c : Char} {cs : List Char} (h : isBlank c = true) (more : Filler allowed cs) : Filler allowed (c :: cs)
  | comment {body cs : List Char} (h : ¬ "-->".toList <:+: body) (more : Filler allowed cs) :
      Filler allowed ("<!--".toList ++ (body ++ ("-->".toList ++ cs)))
  | instruction {body cs : List Char} (h : ¬ "?>".toList <:+: body) (more : Filler allowed cs) :
      Filler allowed ("<?".toList ++ (body ++ ("?>".toList ++ cs)))
  | declaration {body cs : List Char} (h : '>' ∉ body) (hcomment : ¬ "--".toList <+: body)
      (hdata : ¬ "[CDATA[".toList <+: body) (more : Filler allowed cs) :
      Filler allowed ("<!".toList ++ (body ++ (">".toList ++ cs)))
  | stub {x cs : List Char} (h : x ∈ allowed) (more : Filler allowed cs) : Filler allowed (x ++ cs)

theorem Filler.blanks {allowed : List (List Char)} {blanks cs : List Char} (h : ∀ b ∈ blanks, isBlank b = true)
    (more : Filler allowed cs) : Filler allowed (blanks ++ cs) := by
  induction blanks with
  | nil => exact more
  | cons b blanks ih =>
    exact .blank (h b List.mem_cons_self) (ih fun c hc => h c (List.mem_cons_of_mem _ hc))

/-- What is split off ends with the mark, which does not stand before. -/
theorem splitPast_ends {mark cs run after : List Char} (hne : mark ≠ []) (h : splitPast mark cs = some (run, after)) :
    mark <:+ run ∧ ¬ mark <:+: run.dropLast := by
  induction cs generalizing run after with
  | nil => cases h
  | cons c cs ih =>
    have happend := splitPast_append h
    rw [splitPast] at h
    split at h
    · cases h
      refine ⟨List.suffix_rfl, fun hin => ?_⟩
      have hlength := hin.length_le
      have hpos := List.length_pos_iff.mpr hne
      rw [List.length_dropLast] at hlength
      omega
    · rename_i hprefix
      obtain ⟨⟨run, after⟩, hsplit, heq⟩ := Option.map_eq_some_iff.mp h
      cases heq
      obtain ⟨hsuffix, hfirst⟩ := ih hsplit
      refine ⟨hsuffix.trans (List.suffix_cons c run), fun hin => ?_⟩
      have hrun : run ≠ [] := by
        intro hnil
        rw [hnil] at hsuffix
        exact hne (List.suffix_nil.mp hsuffix)
      rw [List.dropLast_cons_of_ne_nil hrun] at hin
      obtain hstart | hin := List.infix_cons_iff.mp hin
      · have hcs : c :: run.dropLast <+: c :: cs := by
          rw [← happend]
          exact (List.cons_prefix_cons.mpr ⟨rfl, List.dropLast_prefix run⟩).trans (List.prefix_append _ _)
        exact hprefix (List.isPrefixOf_iff_prefix.mpr (hstart.trans hcs))
      · exact hfirst hin

/-- The piece from an opening to the first mark is complete, or the mark begins in the opening. -/
private theorem stub_or_complete {opening rest : List Char} {mark : String} {e : ParseError} {piece : Piece}
    (h : pieceTo mark none e '<' rest = .ok piece) (hopening : opening <+: rest) (hne : mark.toList ≠ [])
    (hlength : opening.length ≤ mark.toList.length)
    (hstub : ∀ x ∈ opening.inits, x ≠ opening → opening <+: x ++ mark.toList → '<' :: (x ++ mark.toList) ∈ stubs) :
    piece.inTag = false ∧ (piece.chars ∈ stubs ∨
      ∃ body, piece.chars = '<' :: (opening ++ (body ++ mark.toList)) ∧ ¬ mark.toList <:+: body ∧
        opening ++ body <+: rest) := by
  unfold pieceTo at h
  split at h
  · rename_i run after hsplit
    cases h
    refine ⟨rfl, ?_⟩
    obtain ⟨⟨x, rfl⟩, hfirst⟩ := splitPast_ends hne hsplit
    have hrun : x ++ mark.toList <+: rest := ⟨after, splitPast_append hsplit⟩
    have hx : x <+: rest := (List.prefix_append x mark.toList).trans hrun
    by_cases hbody : opening <+: x
    · obtain ⟨body, rfl⟩ := hbody
      refine .inr ⟨body, by rw [List.append_assoc], fun hin => hfirst ?_, hx⟩
      rw [List.dropLast_append_of_ne_nil hne]
      exact hin.trans ((List.suffix_append opening body).isInfix.trans (List.prefix_append _ _).isInfix)
    · have hinit : x <+: opening := (List.prefix_or_prefix_of_prefix hx hopening).resolve_right hbody
      have hmark : opening <+: x ++ mark.toList :=
        List.prefix_of_prefix_length_le hopening hrun (by rw [List.length_append]; omega)
      refine .inl (hstub x ((List.mem_inits x opening).mpr hinit) (fun heq => hbody ?_) hmark)
      exact heq ▸ List.prefix_rfl
  · cases h

/-- What is passed over between tags is filler. -/
theorem filler_of_readContent {allowed : List (List Char)} {p : Place} {c : Char} {rest : List Char} {piece : Piece}
    (h : readContent p c rest = .ok piece) (hkind : piece.kind = none)
    (hallowed : piece.chars ∈ stubs → piece.chars ∈ allowed) :
    piece.inTag = false ∧ ∀ {cs}, Filler allowed cs → Filler allowed (piece.chars ++ cs) := by
  unfold readContent at h
  split at h
  · cases h
    cases hkind
  rename_i hc
  obtain rfl : c = '<' := by simpa using hc
  split at h
  · rename_i hopen
    obtain ⟨hin, hstub | ⟨body, hchars, hbody, -⟩⟩ :=
      stub_or_complete h (List.isPrefixOf_iff_prefix.mp hopen) (by decide) (by decide) (by decide)
    · exact ⟨hin, .stub (hallowed hstub)⟩
    · refine ⟨hin, fun more => ?_⟩
      rw [hchars]
      simpa using Filler.comment hbody more
  rename_i hcomment
  split at h
  · unfold pieceTo at h
    split at h
    · cases h
      cases hkind
    · cases h
  rename_i hdata
  split at h
  · rename_i hopen
    obtain ⟨rest, rfl⟩ := List.head?_eq_some_iff.mp (beq_iff_eq.mp hopen)
    obtain ⟨hin, hstub | ⟨body, hchars, hbody, -⟩⟩ :=
      stub_or_complete h (List.prefix_append ['?'] rest) (by decide) (by decide) (by decide)
    · exact ⟨hin, .stub (hallowed hstub)⟩
    · refine ⟨hin, fun more => ?_⟩
      rw [hchars]
      simpa using Filler.instruction hbody more
  split at h
  · rename_i hopen
    obtain ⟨rest, rfl⟩ := List.head?_eq_some_iff.mp (beq_iff_eq.mp hopen)
    obtain ⟨hin, hstub | ⟨body, hchars, hbody, hrest⟩⟩ :=
      stub_or_complete h (List.prefix_append ['!'] rest) (by decide) (by decide) (by decide)
    · exact ⟨hin, .stub (hallowed hstub)⟩
    · have hnot {mark : List Char} (hmark : ¬ ('!' :: mark).isPrefixOf ('!' :: rest) = true) : ¬ mark <+: body := by
        intro hprefix
        exact hmark (List.isPrefixOf_iff_prefix.mpr ((List.cons_prefix_cons.mpr ⟨rfl, hprefix⟩).trans hrest))
      refine ⟨hin, fun more => ?_⟩
      rw [hchars]
      have hmark : '>' ∉ body := fun hmem => hbody ((List.singleton_infix_iff '>' body).mpr hmem)
      simpa using Filler.declaration hmark (hnot hcomment) (hnot hdata) more
  split at h
  · cases h
    cases hkind
  · cases h
    cases hkind

/-- Inside a tag nothing but blanks is passed over. -/
theorem kind_of_readTag {p : Place} {c : Char} {rest : List Char} {piece : Piece} (h : readTag p c rest = .ok piece) :
    piece.kind ≠ none := by
  unfold readTag at h
  intro hkind
  split at h
  · cases h
    cases hkind
  split at h
  · cases h
    cases hkind
  split at h
  · cases h
    cases hkind
  split at h
  · split at h
    · cases h
      cases hkind
    · cases h
  split at h
  · cases h
    cases hkind
  · cases h

/-- The tokens of a document part it. -/
theorem parted_of_tokensFrom {allowed : List (List Char)} {inTag : Bool} {p : Place} {cs : List Char} {ts : List Token}
    (h : tokensFrom inTag p cs = .ok ts) (hallowed : ∀ x ∈ stubs, x <:+: cs → x ∈ allowed) :
    Parted (Filler allowed) (Filler allowed) p cs ts := by
  induction hn : cs.length using Nat.strongRecOn generalizing inTag p cs ts with
  | ind n ih =>
    subst hn
    obtain ⟨hblanks, -, rfl⟩ | ⟨c, rest, piece, more, hd, hread, hmore, rfl⟩ := tokensFrom_eq_ok h
    · have hall : Filler allowed (cs ++ []) := .blanks (List.dropWhile_eq_nil_iff.mp hblanks) .nil
      rw [List.append_nil] at hall
      exact .last hall
    obtain ⟨blanks, rfl, hblanks, hp, -, -⟩ := blanks_split hd
    rw [hp] at hread hmore ⊢
    obtain ⟨tail, hchars, hrest⟩ := readPiece_append hread
    rw [← hrest, ← List.cons_append, ← hchars] at hallowed ih ⊢
    have hlength : piece.rest.length < (blanks ++ (piece.chars ++ piece.rest)).length := by
      simp only [hchars, List.length_append, List.length_cons]
      omega
    have hparted := ih _ hlength hmore
      (fun x hx hin => hallowed x hx (hin.trans ⟨blanks ++ piece.chars, [], by simp⟩)) rfl
    cases hkind : piece.kind with
    | some kind =>
      have hfill : Filler allowed (blanks ++ []) := .blanks hblanks .nil
      rw [List.append_nil] at hfill
      rw [Piece.tokens, hkind]
      exact .token hfill (hchars ▸ List.cons_ne_nil c tail) hparted
    | none =>
      cases inTag with
      | true => exact absurd hkind (kind_of_readTag hread)
      | false =>
        have hstub : piece.chars ∈ stubs → piece.chars ∈ allowed :=
          fun hmem => hallowed _ hmem ⟨blanks, piece.rest, by simp⟩
        obtain ⟨-, hfill⟩ := filler_of_readContent hread hkind hstub
        rw [Piece.tokens, hkind]
        exact (hparted.behind hfill hfill).behind (.blanks hblanks) (.blanks hblanks)

end Markup

namespace Language

variable {l : Language} {text : List Char} {s : Source}

/-- The tokens of a text, read from byte to byte. -/
def scan : Language → List Char → Scan (List Mark)
  | .script => Script.scan
  | .markup => Markup.scan

/-- What may stand before a token. -/
def Filler (l : Language) (allowed : List (List Char)) : List Char → Prop :=
  match l with
  | .script => Script.Filler
  | .markup => Markup.Filler allowed

/-- What may stand behind the last token. -/
def Trailer (l : Language) (allowed : List (List Char)) : List Char → Prop :=
  match l with
  | .script => Script.Trailer
  | .markup => Markup.Filler allowed

theorem parts_of_source {allowed : List (List Char)} (h : l.source text = .ok s)
    (hallowed : ∀ x ∈ Markup.stubs, x <:+: text → x ∈ allowed) :
    s.text = text ∧ s.Parts (l.Filler allowed) (l.Trailer allowed) := by
  cases l with
  | script =>
    obtain ⟨rfl, htokens⟩ := Script.tokensFrom_of_source h
    exact ⟨rfl, Source.parts_of_parted (Script.parted_of_tokensFrom htokens) (Script.laidOut_of_source h)⟩
  | markup =>
    obtain ⟨rfl, htokens⟩ := Markup.tokensFrom_of_source h
    exact ⟨rfl, Source.parts_of_parted (Markup.parted_of_tokensFrom htokens hallowed) (Markup.laidOut_of_source h)⟩

/-- A text is read without a slice that is not there, to the tokens or the fault of the text, and the tokens part it.
Stubs pass for filler only where the text has them. -/
theorem tokens_part_text (l : Language) (text : List Char) :
    (l.scan text).run = some ((l.source text).map fun s => s.tokens.map Token.mark) ∧
    ∀ s, l.source text = .ok s → s.text = text ∧
      s.Parts (l.Filler (Markup.stubs.filter (· <:+: text))) (l.Trailer (Markup.stubs.filter (· <:+: text))) := by
  constructor
  · cases l with
    | script => exact Script.scan_eq text
    | markup => exact Markup.scan_eq text
  · intro s h
    apply parts_of_source h
    intro x hx hin
    exact List.mem_filter.mpr ⟨hx, decide_eq_true hin⟩

theorem tokens_part_text_of_a_document :
    ∃ s, Language.markup.source "<a/>\n<!-- é --> b".toList = .ok s ∧
      (Language.markup.scan "<a/>\n<!-- é --> b".toList).run = some (.ok
        [⟨.punct, 0, 1, 1, 1⟩, ⟨.ident, 1, 2, 1, 2⟩, ⟨.punct, 2, 4, 1, 3⟩, ⟨.text, 17, 18, 2, 12⟩]) ∧
      s.Parts (Markup.Filler []) (Markup.Filler []) := by
  have hsource : Language.markup.source "<a/>\n<!-- é --> b".toList = .ok ⟨"<a/>\n<!-- é --> b".toList,
      [⟨.punct, "<", ⟨0, 1, 1⟩⟩, ⟨.ident, "a", ⟨1, 1, 2⟩⟩, ⟨.punct, "/>", ⟨2, 1, 3⟩⟩, ⟨.text, "b", ⟨17, 2, 12⟩⟩]⟩ := by
    decide +kernel
  obtain ⟨hscan, hparts⟩ := tokens_part_text .markup "<a/>\n<!-- é --> b".toList
  have hstubs : Markup.stubs.filter (· <:+: "<a/>\n<!-- é --> b".toList) = [] := by decide +kernel
  rw [hstubs] at hparts
  rw [hsource] at hscan
  refine ⟨_, hsource, hscan.trans ?_, (hparts _ hsource).2⟩
  decide +kernel

/-- An opening that is its own end is passed over like an instruction, and is none. -/
theorem stub_is_passed_over :
    ∃ s, Language.markup.source "<?>".toList = .ok s ∧ ¬ s.Parts (Markup.Filler []) (Markup.Filler []) := by
  refine ⟨⟨"<?>".toList, []⟩, by decide +kernel, ?_⟩
  intro hparts
  obtain ⟨gap, hgap, hfill⟩ := hparts.ended
  obtain rfl : "<?>".toList = gap := Option.some.inj hgap
  generalize hx : "<?>".toList = x at hfill
  cases hfill with
  | nil => cases hx
  | blank hblank more =>
    cases hx
    exact absurd hblank (by decide)
  | comment => cases hx
  | @instruction body cs =>
    have hlength := congrArg List.length hx
    simp at hlength
    omega
  | declaration => cases hx
  | stub hstub => cases hstub

end Language

end ModWeave
