import ModWeave.Proofs.Token.Script

/-! Other spacing between the tokens of a script. A token ends where it ended before when a blank comes
behind it, so that the text reads as the same lexemes. -/
namespace ModWeave.Script

open Text

/-- Blanks and comments, each comment complete. -/
inductive Filler : List Char → Prop
  | nil : Filler []
  | blank {c : Char} {cs : List Char} (h : isBlank c = true) (more : Filler cs) : Filler (c :: cs)
  | lineComment {body cs : List Char} (h : '\n' ∉ body) (more : Filler cs) :
      Filler ('/' :: '/' :: (body ++ '\n' :: cs))
  | blockComment {body cs : List Char} (h : ¬ ['*', '/'] <:+: body) (more : Filler cs) :
      Filler ('/' :: '*' :: (body ++ '*' :: '/' :: cs))

/-- What may stand between two tokens: a blank, and more filler or not. -/
def Spacing (cs : List Char) : Prop := Filler cs ∧ cs.head?.any isBlank = true

/-- The tokens as they are written, with spacing before each and behind the last. -/
inductive Respaced : List Token → List Char → Prop
  | last {gap : List Char} (h : Spacing gap) : Respaced [] gap
  | token {t : Token} {ts : List Token} {gap cs : List Char} (h : Spacing gap) (more : Respaced ts cs) :
      Respaced (t :: ts) (gap ++ (t.lexeme.toList ++ cs))

section Blank

/-- Every blank, one by one. -/
private theorem forall_blank {P : Char → Prop} [DecidablePred P]
    (h : ∀ r ∈ blankRanges, ∀ i < r.2 + 1 - r.1, P (Char.ofNat (r.1 + i))) {c : Char}
    (hc : isBlank c = true) : P c := by
  obtain ⟨r, hr, hlo, hhi⟩ := exists_of_covers hc
  have := h r hr (c.toNat - r.1) (by omega)
  rwa [Nat.add_sub_cancel' hlo, Char.ofNat_toNat] at this

variable {c : Char}

/-- A blank goes on with no name. -/
theorem not_isIdentRest_of_isBlank (h : isBlank c = true) : isIdentRest c = false :=
  forall_blank (P := fun c => isIdentRest c = false) (by decide +kernel) h

theorem signs_of_isBlank (h : isBlank c = true) :
    c ≠ '/' ∧ c ≠ '*' ∧ c ≠ '.' ∧ c ≠ '+' ∧ c ≠ '-' ∧ c ≠ '_' ∧ c.isAlphanum = false :=
  forall_blank (P := fun c => c ≠ '/' ∧ c ≠ '*' ∧ c ≠ '.' ∧ c ≠ '+' ∧ c ≠ '-' ∧ c ≠ '_' ∧
    c.isAlphanum = false) (by decide +kernel) h

theorem not_continuesNumber_of_isBlank (h : isBlank c = true) (previous : Char) (rest : List Char) :
    continuesNumber previous c rest = false := by
  obtain ⟨-, -, hdot, hplus, hminus, hunder, halnum⟩ := signs_of_isBlank h
  simp [continuesNumber, *]

theorem not_isDigit_of_isBlank (h : isBlank c = true) : c.isDigit = false := by
  have := (signs_of_isBlank h).2.2.2.2.2.2
  simp only [Char.isAlphanum, Bool.or_eq_false_iff] at this
  exact this.2

theorem not_isPair_of_isBlank (h : isBlank c = true) (d : Char) : isPair d c = false := by
  have : c ∉ [':', '&', '|', '='] :=
    forall_blank (P := fun c => c ∉ [':', '&', '|', '=']) (by decide +kernel) h
  simp_all [isPair]

end Blank

/-! Filler is passed before any text. -/

private theorem afterGap_lineComment {body : List Char} (h : '\n' ∉ body) (p : Place) (ds : List Char) :
    afterGap .lineComment p (body ++ '\n' :: ds) = afterGap .blanks p ds := by
  induction body generalizing p with
  | nil =>
    rw [List.nil_append, afterGap, skipGap, if_pos rfl]
    exact afterGap_place rfl _ _ _
  | cons c body ih =>
    rw [List.mem_cons, not_or] at h
    rw [List.cons_append, afterGap, skipGap, if_neg (Ne.symm h.1)]
    exact (ih h.2 _).trans (afterGap_place rfl _ _ _)

private theorem afterGap_blockComment {body : List Char} (h : ¬ ['*', '/'] <:+: body) (o p : Place)
    (ds : List Char) :
    afterGap (.blockComment o) p (body ++ '*' :: '/' :: ds) = afterGap .blanks p ds := by
  induction body generalizing p with
  | nil =>
    rw [List.nil_append, afterGap, skipGap]
    exact afterGap_place rfl _ _ _
  | cons c body ih =>
    rw [List.cons_append, afterGap, skipGap]
    · exact (ih (fun hin => h (hin.trans (List.suffix_cons c body).isInfix)) _).trans
        (afterGap_place rfl _ _ _)
    · rintro rest rfl hrest
      cases body with
      | nil => cases hrest
      | cons d body =>
        obtain ⟨rfl, -⟩ := List.cons.inj hrest
        exact h ⟨[], body, rfl⟩

theorem Filler.afterGap {gap : List Char} (h : Filler gap) (p : Place) (ds : List Char) :
    afterGap .blanks p (gap ++ ds) = afterGap .blanks p ds := by
  induction h generalizing p with
  | nil => rfl
  | blank hc more ih =>
    have hslash := (signs_of_isBlank hc).1
    rw [List.cons_append, Script.afterGap, skipGap, if_pos hc]
    · exact (ih _).trans (afterGap_place rfl _ _ _)
    · exact fun _ he _ => hslash he
    · exact fun _ he _ => hslash he
  | lineComment hbody more ih =>
    rw [List.cons_append, List.cons_append, List.append_assoc, List.cons_append, Script.afterGap, skipGap]
    exact (afterGap_lineComment hbody _ _).trans ((ih _).trans (afterGap_place rfl _ _ _))
  | blockComment hbody more ih =>
    rw [List.cons_append, List.cons_append, List.append_assoc, List.cons_append, List.cons_append,
      Script.afterGap, skipGap]
    exact (afterGap_blockComment hbody _ _ _).trans ((ih _).trans (afterGap_place rfl _ _ _))

/-! A token ends before a blank where it ended before. -/

section Token

variable {d : Char} {tail after ds : List Char}

/-- What is told by the character behind a token no longer holds, and nothing else changes. -/
private theorem any_head? {f : Char → Bool} (hf : f d = false) (after : List Char) :
    (tail ++ d :: ds).head?.any f = (!tail.isEmpty && (tail ++ after).head?.any f) := by
  cases tail with
  | nil => simpa using hf
  | cons => rfl

private theorem takeWhile_before {f : Char → Bool} (hf : f d = false)
    (h : (tail ++ after).takeWhile f = tail) (ds : List Char) :
    (tail ++ d :: ds).takeWhile f = tail ∧ (tail ++ d :: ds).dropWhile f = d :: ds := by
  have hall : ∀ x ∈ tail, f x = true := by
    intro x hx
    rw [← h] at hx
    exact List.mem_takeWhile_imp hx
  constructor
  · rw [List.takeWhile_append_of_pos hall, List.takeWhile_cons_of_neg (by simp [hf]), List.append_nil]
  · rw [List.dropWhile_append_of_pos hall, List.dropWhile_cons_of_neg (by simp [hf])]

/-- A digit that a number could go on with is part of it. -/
private theorem nonempty_of_digit {previous : Char} (h : numberRun previous (tail ++ after) = (tail, after))
    (hdigit : (tail ++ after).head?.any Char.isDigit = true) : tail.isEmpty = false := by
  cases tail with
  | cons => rfl
  | nil =>
    cases after with
    | nil => cases hdigit
    | cons e after =>
      have he : e.isAlphanum = true := by
        simp only [List.nil_append, List.head?_cons, Option.any_some] at hdigit
        simp [Char.isAlphanum, hdigit]
      simp [numberRun, continuesNumber, he] at h

/-- A point that stands before a digit of its number still does. -/
private theorem any_digit_before {previous : Char} (hd : isBlank d = true)
    (h : numberRun previous (tail ++ after) = (tail, after)) :
    (tail ++ d :: ds).head?.any Char.isDigit = (tail ++ after).head?.any Char.isDigit := by
  rw [any_head? (not_isDigit_of_isBlank hd) after]
  cases hdigit : (tail ++ after).head?.any Char.isDigit with
  | false => rw [Bool.and_false]
  | true => rw [nonempty_of_digit h hdigit]; rfl

private theorem numberRun_before {previous : Char} (hd : isBlank d = true)
    (h : numberRun previous (tail ++ after) = (tail, after)) :
    numberRun previous (tail ++ d :: ds) = (tail, d :: ds) := by
  induction tail generalizing previous with
  | nil =>
    rw [List.nil_append, numberRun, not_continuesNumber_of_isBlank hd]
    rfl
  | cons c run ih =>
    rw [List.cons_append, numberRun] at h ⊢
    split at h
    · rename_i hc
      simp only [Prod.mk.injEq, List.cons.injEq, true_and] at h
      have hrun : numberRun c (run ++ after) = (run, after) := Prod.ext h.1 h.2
      have hc' : continuesNumber previous c (run ++ d :: ds) = true := by
        rw [continuesNumber, any_digit_before hd hrun]
        exact hc
      rw [if_pos hc', ih hrun]
    · cases h

/-- The token that is split off a text is split off any other text that goes on with a blank. -/
theorem readToken_before_blank {p q : Place} {c : Char} {kind : TokenKind} (hd : isBlank d = true)
    (h : readToken p c (tail ++ after) = .ok (kind, c :: tail, after)) :
    readToken q c (tail ++ d :: ds) = .ok (kind, c :: tail, d :: ds) := by
  unfold readToken at h ⊢
  split at h
  · rename_i hc
    rw [if_pos hc]
    split at h
    · rename_i body after' hb
      simp only [Except.ok.injEq, Prod.mk.injEq, List.cons.injEq, true_and] at h
      obtain ⟨rfl, rfl, rfl⟩ := h
      rw [stringBody_local hb]
    · cases h
  rename_i hc
  rw [if_neg hc]
  split at h
  · rename_i hc
    simp only [Except.ok.injEq, Prod.mk.injEq, List.cons.injEq, true_and] at h
    obtain ⟨rfl, h1, h2⟩ := h
    have hrun : numberRun c (tail ++ after) = (tail, after) := Prod.ext h1 h2
    rw [any_digit_before hd hrun, if_pos hc, numberRun_before hd hrun]
  rename_i hc
  have hc' : ¬ (c.isDigit || (c == '.' && (tail ++ d :: ds).head?.any Char.isDigit)) = true := by
    rw [any_head? (not_isDigit_of_isBlank hd) after]
    intro h
    apply hc
    simp only [Bool.or_eq_true, Bool.and_eq_true] at h ⊢
    exact h.imp_right fun h => ⟨h.1, h.2.2⟩
  rw [if_neg hc']
  have hname := not_isIdentRest_of_isBlank hd
  split at h
  · rename_i hc
    rw [if_pos hc]
    simp only at h ⊢
    split at h
    · cases h
    · rename_i he
      simp only [Except.ok.injEq, Prod.mk.injEq, List.cons.injEq, true_and] at h
      obtain ⟨rfl, h1, -⟩ := h
      obtain ⟨k1, k2⟩ := takeWhile_before hname h1 ds
      rw [h1] at he
      rw [k1, k2, if_neg he]
  rename_i hc
  rw [if_neg hc]
  split at h
  · rename_i hc
    rw [if_pos hc]
    simp only [Except.ok.injEq, Prod.mk.injEq, List.cons.injEq, true_and] at h
    obtain ⟨rfl, h1, -⟩ := h
    obtain ⟨k1, k2⟩ := takeWhile_before hname h1 ds
    rw [k1, k2]
  rename_i hc
  rw [if_neg hc, any_head? (not_isPair_of_isBlank hd c) after]
  split at h
  · rename_i hc
    simp only [Except.ok.injEq, Prod.mk.injEq, List.cons.injEq, true_and] at h
    obtain ⟨rfl, h1, h2⟩ := h
    cases tail with
    | nil =>
      cases after with
      | nil => cases hc
      | cons => simp at h1
    | cons e tail =>
      obtain rfl : tail = [] := by simpa using h1.symm
      rw [hc]
      rfl
  rename_i hc
  rw [Bool.not_eq_true] at hc
  rw [hc, Bool.and_false, if_neg (by decide)]
  by_cases hsign : isSign c = true
  · rw [if_pos hsign] at h ⊢
    simp only [Except.ok.injEq, Prod.mk.injEq, List.cons.injEq, true_and] at h
    obtain ⟨rfl, rfl, -⟩ := h
    rfl
  · rw [if_neg hsign] at h
    cases h

end Token

theorem Spacing.starts {gap : List Char} (h : Spacing gap) :
    ∃ d rest, gap = d :: rest ∧ isBlank d = true := by
  obtain ⟨-, h⟩ := h
  cases gap with
  | nil => cases h
  | cons d rest => exact ⟨d, rest, rfl, h⟩

theorem Respaced.starts {ts : List Token} {cs : List Char} (h : Respaced ts cs) :
    ∃ d rest, cs = d :: rest ∧ isBlank d = true := by
  cases h with
  | last h => exact h.starts
  | token h more =>
    obtain ⟨d, rest, rfl, hd⟩ := h.starts
    exact ⟨d, _, rfl, hd⟩

/-- A text with other spacing reads as the same lexemes. -/
theorem lexemesFrom_respaced {p q : Place} {cs ds : List Char} {ts : List Token}
    (h : tokensFrom p cs = .ok ts) (hds : Respaced ts ds) :
    lexemesFrom q ds = some (ts.map Token.content) := by
  induction hds generalizing p q cs with
  | @last gap hgap =>
    have hempty : lexemesFrom q ([] : List Char) = some [] := by
      rw [lexemesFrom, tokensFrom_of_end (q := q) (by rfl)]
      rfl
    have hgap := lexemesFrom_congr (hgap.1.afterGap q [])
    rw [List.append_nil, hempty] at hgap
    exact hgap
  | @token t ts gap ds hgap more ih =>
    obtain ⟨h, -⟩ | ⟨q', c, rest, kind, lexeme, after, rest', hg, hread, hmore, heq⟩ := tokensFrom_eq_ok h
    · cases h
    obtain ⟨rfl, rfl⟩ := List.cons.inj heq
    obtain ⟨tail, rfl, rfl⟩ := readToken_append hread
    obtain ⟨d, ds, rfl, hd⟩ := more.starts
    have hsigns := signs_of_isBlank hd
    -- the character behind the token is the one it was, or a blank
    have hstops : Stops c (tail ++ d :: ds) := by
      obtain ⟨hblank, hslash⟩ := stops_of_skipGap hg
      refine ⟨hblank, fun hc => ?_⟩
      cases tail with
      | nil => simpa using ⟨hsigns.1, hsigns.2.1⟩
      | cons => exact hslash hc
    simp only [String.toList_ofList]
    rw [lexemesFrom_congr (hgap.1.afterGap q _), List.cons_append,
      lexemesFrom_of_token (hstops.afterGap q) (readToken_before_blank (q := q) hd hread), ih hmore]
    rfl

end ModWeave.Script
