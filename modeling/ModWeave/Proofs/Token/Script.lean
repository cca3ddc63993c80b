import Mathlib.Data.List.TakeWhile
import ModWeave.Proofs.Token.Reads

/-! Tokens of joined script texts. A text that ends behind `;` or a brace can be cut there: the lexemes
before the cut do not depend on what follows. -/
namespace ModWeave.Script
open Text

/-- What is left behind a gap, wherever it starts. -/
def afterGap (g : Gap) (p : Place) (cs : List Char) : Option (List Char) :=
  (skipGap g p cs).toOption.map Prod.snd

def Gap.forget : Gap → Gap
  | .blockComment _ => .blockComment .origin
  | g => g

theorem afterGap_place {g g' : Gap} (h : g.forget = g'.forget) (p q : Place)
    (cs : List Char) : afterGap g p cs = afterGap g' q cs := by
  unfold afterGap
  fun_induction skipGap g p cs generalizing g' q with
  | case1 _ _ ih | case2 _ _ ih | case6 _ _ _ ih | case8 _ _ _ ih =>
    cases g' <;> simp only [Gap.forget, reduceCtorEq] at h
    rw [skipGap]
    exact ih (by rfl) _
  | case3 p c rest h1 h2 hb ih =>
    cases g' <;> simp only [Gap.forget, reduceCtorEq] at h
    rw [skipGap, if_pos hb]
    · exact ih (by rfl) _
    · exact h1
    · exact h2
  | case4 p c rest h1 h2 hb =>
    cases g' <;> simp only [Gap.forget, reduceCtorEq] at h
    rw [skipGap, if_neg hb]
    · rfl
    · exact h1
    · exact h2
  | case9 o p c rest h1 ih =>
    cases g' <;> simp only [Gap.forget, reduceCtorEq] at h
    rw [skipGap]
    · exact ih (by rfl) _
    · exact h1
  | case5 | case7 | case10 =>
    cases g' <;> simp only [Gap.forget, reduceCtorEq] at h
    rfl

/-- What is passed before a token is passed before any text. -/
theorem skipGap_prefix {g : Gap} {p q : Place} {cs rest : List Char} {c : Char}
    (h : skipGap g p cs = .ok (q, c :: rest)) :
    ∃ gap, cs = gap ++ c :: rest ∧ q = p.advance gap ∧
      (g.forget ≠ .blanks → gap ≠ []) ∧
      ∀ p' ds, afterGap g p' (gap ++ ds) = afterGap .blanks p' ds := by
  fun_induction skipGap g p cs with
  | case1 p cs ih =>
    obtain ⟨gap, rfl, rfl, -, hg⟩ := ih h
    refine ⟨'/' :: '/' :: gap, rfl, rfl, by simp, fun p' ds => ?_⟩
    rw [← hg p' ds]
    simp only [afterGap, List.cons_append]
    rw [skipGap]
    exact afterGap_place (by rfl) _ _ _
  | case2 p cs ih =>
    obtain ⟨gap, rfl, rfl, -, hg⟩ := ih h
    refine ⟨'/' :: '*' :: gap, rfl, rfl, by simp, fun p' ds => ?_⟩
    rw [← hg p' ds]
    simp only [afterGap, List.cons_append]
    rw [skipGap]
    exact afterGap_place (by rfl) _ _ _
  | case3 p c' cs h1 h2 hb ih =>
    obtain ⟨gap, rfl, rfl, -, hg⟩ := ih h
    refine ⟨c' :: gap, rfl, rfl, by simp, fun p' ds => ?_⟩
    have hc : c' ≠ '/' := by
      rintro rfl
      revert hb
      decide
    rw [← hg p' ds]
    simp only [afterGap, List.cons_append]
    rw [skipGap, if_pos hb]
    · exact afterGap_place rfl _ _ _
    · exact fun _ he _ => hc he
    · exact fun _ he _ => hc he
  | case4 p c' cs h1 h2 hb =>
    cases h
    exact ⟨[], rfl, rfl, fun h => absurd rfl h, fun p' ds => rfl⟩
  | case5 | case7 | case10 => cases h
  | case6 p c' cs ih =>
    obtain ⟨gap, rfl, rfl, -, hg⟩ := ih h
    refine ⟨c' :: gap, rfl, rfl, by simp, fun p' ds => ?_⟩
    rw [← hg p' ds]
    simp only [afterGap, List.cons_append]
    rw [skipGap]
    exact afterGap_place (by rfl) _ _ _
  | case8 p o cs ih =>
    obtain ⟨gap, rfl, rfl, -, hg⟩ := ih h
    refine ⟨'*' :: '/' :: gap, rfl, rfl, by simp, fun p' ds => ?_⟩
    rw [← hg p' ds]
    simp only [afterGap, List.cons_append]
    rw [skipGap]
    exact afterGap_place (by rfl) _ _ _
  | case9 o p c' cs h1 ih =>
    obtain ⟨gap, rfl, rfl, hne, hg⟩ := ih h
    refine ⟨c' :: gap, rfl, rfl, by simp, fun p' ds => ?_⟩
    rw [← hg p' ds]
    simp only [afterGap, List.cons_append]
    rw [skipGap]
    · exact afterGap_place rfl _ _ _
    · intro after hc ha
      obtain ⟨d, gap', hgap⟩ := List.exists_cons_of_ne_nil (hne (by simp [Gap.forget]))
      subst hgap
      simp only [List.cons_append, List.cons.injEq] at ha
      exact h1 _ hc (by rw [List.cons_append, ha.1])

theorem stringBody_local {cs body after : List Char} (h : stringBody cs = some (body, after))
    (ds : List Char) : stringBody (body ++ ds) = some (body, ds) := by
  fun_induction stringBody cs generalizing body after with
  | case1 rest =>
    cases h
    rfl
  | case2 c rest ih =>
    obtain ⟨⟨b, a⟩, hb, he⟩ := Option.map_eq_some_iff.mp h
    cases he
    simp [stringBody, ih hb]
  | case3 c rest hq hs ih =>
    obtain ⟨⟨b, a⟩, hb, he⟩ := Option.map_eq_some_iff.mp h
    cases he
    have hc : c ≠ '\\' := by
      rintro rfl
      cases rest with
      | nil => simp [stringBody] at hb
      | cons c' rest' => exact hs c' rest' rfl rfl
    rw [List.cons_append, stringBody, ih hb]
    · rfl
    · exact hq
    · exact fun _ _ he _ => hc he
  | case4 => cases h

private theorem continuesNumber_local {previous c : Char} {run w cs : List Char} (hw : w ≠ [])
    (ds : List Char) :
    continuesNumber previous c (run ++ (w ++ cs)) = continuesNumber previous c (run ++ (w ++ ds)) := by
  unfold continuesNumber
  rw [head?_local (List.append_ne_nil_of_right_ne_nil run hw)]

private theorem numberRun_local {previous : Char} {run w cs : List Char} (hw : w ≠ [])
    (hp : w ≠ ['.']) (h : numberRun previous (run ++ (w ++ cs)) = (run, w ++ cs))
    (ds : List Char) : numberRun previous (run ++ (w ++ ds)) = (run, w ++ ds) := by
  induction run generalizing previous with
  | nil =>
    obtain ⟨d, w, rfl⟩ := List.exists_cons_of_ne_nil hw
    have hd : continuesNumber previous d (w ++ ds) = continuesNumber previous d (w ++ cs) := by
      cases w with
      | nil =>
        have hd : (d == '.') = false := beq_false_of_ne fun he => hp (by rw [he])
        simp only [continuesNumber, hd, Bool.false_and]
      | cons => rfl
    simp only [List.nil_append, List.cons_append, numberRun] at h ⊢
    rw [hd]
    split at h
    · simp at h
    · rename_i hc
      rw [if_neg hc]
  | cons c run ih =>
    simp only [List.cons_append, numberRun] at h ⊢
    rw [continuesNumber_local hw ds] at h
    split at h
    · rename_i hc
      simp only [Prod.mk.injEq, List.cons.injEq, true_and] at h
      rw [if_pos hc, ih (Prod.ext h.1 h.2)]
    · simp at h

/-- A token stays the same when the text changes behind it, but for the characters right behind it. -/
private theorem readToken_local {p : Place} {c : Char} {tail w cs : List Char} {kind : TokenKind}
    (hw : w ≠ []) (hp : w ≠ ['.'])
    (h : readToken p c (tail ++ (w ++ cs)) = .ok (kind, c :: tail, w ++ cs)) (q : Place)
    (ds : List Char) :
    readToken q c (tail ++ (w ++ ds)) = .ok (kind, c :: tail, w ++ ds) := by
  unfold readToken at h ⊢
  rw [head?_local (List.append_ne_nil_of_right_ne_nil tail hw)] at h
  split at h
  · rename_i hc
    rw [if_pos hc]
    split at h
    · rename_i body after hb
      simp only [Except.ok.injEq, Prod.mk.injEq, List.cons.injEq, true_and] at h
      obtain ⟨rfl, rfl, rfl⟩ := h
      rw [stringBody_local hb]
    · cases h
  rename_i hc
  rw [if_neg hc]
  split at h
  · rename_i hc
    rw [if_pos hc]
    simp only [Except.ok.injEq, Prod.mk.injEq, List.cons.injEq, true_and] at h
    obtain ⟨rfl, h1, h2⟩ := h
    rw [numberRun_local hw hp (Prod.ext h1 h2) ds]
  rename_i hc
  rw [if_neg hc]
  split at h
  · rename_i hc
    rw [if_pos hc]
    simp only at h ⊢
    split at h
    · cases h
    · rename_i he
      simp only [Except.ok.injEq, Prod.mk.injEq, List.cons.injEq, true_and] at h
      obtain ⟨rfl, h1, -⟩ := h
      obtain ⟨k1, k2⟩ := takeWhile_local hw h1 ds
      rw [h1] at he
      rw [k1, k2, if_neg he]
  rename_i hc
  rw [if_neg hc]
  split at h
  · rename_i hc
    rw [if_pos hc]
    simp only [Except.ok.injEq, Prod.mk.injEq, List.cons.injEq, true_and] at h
    obtain ⟨rfl, h1, -⟩ := h
    obtain ⟨k1, k2⟩ := takeWhile_local hw h1 ds
    rw [k1, k2]
  rename_i hc
  rw [if_neg hc]
  split at h
  · rename_i hc
    rw [if_pos hc]
    simp only [Except.ok.injEq, Prod.mk.injEq, List.cons.injEq, true_and] at h
    obtain ⟨rfl, h1, -⟩ := h
    have hlen : tail.length = 1 := by
      have hpos := List.length_pos_iff.mpr hw
      rw [← h1, List.length_take, List.length_append, List.length_append]
      omega
    obtain ⟨d, rfl⟩ := List.length_eq_one_iff.mp hlen
    rfl
  rename_i hc
  rw [if_neg hc]
  split at h
  · rename_i hc
    rw [if_pos hc]
    simp only [Except.ok.injEq, Prod.mk.injEq, List.cons.injEq, true_and] at h
    obtain ⟨rfl, rfl, -⟩ := h
    rfl
  · cases h

theorem tokensFrom_of_error {p : Place} {cs : List Char} {e : ParseError}
    (h : skipGap .blanks p cs = .error e) : tokensFrom p cs = .error e := by
  rw [tokensFrom]
  split <;> rename_i hg <;> rw [h] at hg <;> cases hg
  rfl

theorem tokensFrom_of_end {p q : Place} {cs : List Char}
    (h : skipGap .blanks p cs = .ok (q, [])) : tokensFrom p cs = .ok [] := by
  rw [tokensFrom]
  split
  · rename_i hg
    rw [h] at hg
    cases hg
  · rfl
  · rename_i hg
    rw [h] at hg
    cases hg

theorem tokensFrom_of_token {p q : Place} {cs rest lexeme after : List Char} {c : Char}
    {kind : TokenKind} (h : skipGap .blanks p cs = .ok (q, c :: rest))
    (ht : readToken q c rest = .ok (kind, lexeme, after)) :
    tokensFrom p cs =
      (tokensFrom (q.advance lexeme) after).map (⟨kind, String.ofList lexeme, q⟩ :: ·) := by
  rw [tokensFrom]
  split
  · rename_i hg
    rw [h] at hg
    cases hg
  · rename_i hg
    rw [h] at hg
    cases hg
  · rename_i hg
    rw [h] at hg
    cases hg
    split
    · rename_i ht'
      rw [ht] at ht'
      cases ht'
    · rename_i ht'
      rw [ht] at ht'
      cases ht'
      rfl

theorem tokensFrom_of_fault {p q : Place} {cs rest : List Char} {c : Char} {e : ParseError}
    (h : skipGap .blanks p cs = .ok (q, c :: rest)) (ht : readToken q c rest = .error e) :
    tokensFrom p cs = .error e := by
  rw [tokensFrom]
  split <;> rename_i hg <;> rw [h] at hg <;> cases hg
  split <;> rename_i ht' <;> rw [ht] at ht' <;> cases ht'
  rfl

/-- Tokens are read one by one behind their gaps. -/
theorem tokensFrom_eq_ok {p : Place} {cs : List Char} {ts : List Token}
    (h : tokensFrom p cs = .ok ts) :
    (ts = [] ∧ ∃ q, skipGap .blanks p cs = .ok (q, [])) ∨
    ∃ q c rest kind lexeme after more, skipGap .blanks p cs = .ok (q, c :: rest) ∧
      readToken q c rest = .ok (kind, lexeme, after) ∧
      tokensFrom (q.advance lexeme) after = .ok more ∧
      ts = ⟨kind, String.ofList lexeme, q⟩ :: more := by
  rw [tokensFrom] at h
  split at h
  · cases h
  · rename_i q hg
    cases h
    exact .inl ⟨rfl, q, hg⟩
  · rename_i q c rest hg
    split at h
    · cases h
    · rename_i kind lexeme after ht
      cases hm : tokensFrom (q.advance lexeme) after with
      | error e => rw [hm] at h; cases h
      | ok more =>
        rw [hm] at h
        cases h
        exact .inr ⟨q, c, rest, kind, lexeme, after, more, hg, ht, hm, rfl⟩

/-- The lexemes from a place on. -/
def lexemesFrom (p : Place) (cs : List Char) : Option (List Lexeme) :=
  (tokensFrom p cs).toOption.map (·.map Token.content)

private theorem colon_not_mem_of_readToken {p : Place} {c : Char} {rest lexeme after : List Char}
    (h : readToken p c rest = .ok (.ident, lexeme, after)) : ':' ∉ lexeme := by
  unfold readToken at h
  split at h
  · split at h <;> cases h
  split at h
  · cases h
  split at h
  · dsimp only at h
    split at h <;> cases h
  split at h
  · rename_i hc
    cases h
    rw [List.mem_cons, not_or]
    refine ⟨?_, fun hmem => ?_⟩
    · rintro rfl
      exact absurd hc (by decide)
    · exact absurd (List.mem_takeWhile_imp hmem) (by decide)
  split at h
  · cases h
  split at h <;> cases h

/-- Names have no colon in them. -/
private theorem colon_not_mem_of_tokensFrom {p : Place} {cs : List Char} {ts : List Token}
    (h : tokensFrom p cs = .ok ts) : ∀ t ∈ ts, t.kind = .ident → ':' ∉ t.lexeme.toList := by
  induction hn : cs.length using Nat.strongRecOn generalizing p cs ts with
  | ind _ ih =>
    subst hn
    obtain ⟨rfl, -⟩ | ⟨q, c, rest, kind, lexeme, after, more, hg, ht, hmore, rfl⟩ := tokensFrom_eq_ok h
    · simp
    · obtain ⟨tail, -, rfl⟩ := readToken_append ht
      have hle := skipGap_length hg
      rw [List.length_cons, List.length_append] at hle
      refine List.forall_mem_cons.mpr ⟨?_, ih _ (by omega) hmore rfl⟩
      rintro rfl
      rw [String.toList_ofList]
      exact colon_not_mem_of_readToken ht

theorem readToken_place {p : Place} {c : Char} {rest : List Char}
    {x : TokenKind × List Char × List Char} (h : readToken p c rest = .ok x) (q : Place) :
    readToken q c rest = .ok x := by
  have hpq : (readToken p c rest).toOption = (readToken q c rest).toOption := by
    unfold readToken
    split
    · split <;> rfl
    split
    · rfl
    split
    · simp only
      split <;> rfl
    split
    · rfl
    split
    · rfl
    split <;> rfl
  rw [h] at hpq
  cases hq : readToken q c rest with
  | error e => simp [hq, Except.toOption] at hpq
  | ok y => simpa [hq, Except.toOption] using hpq.symm

/-- The lexemes depend on nothing but the text behind the first gap. -/
theorem lexemesFrom_congr {p q : Place} {cs ds : List Char}
    (h : afterGap .blanks p cs = afterGap .blanks q ds) : lexemesFrom p cs = lexemesFrom q ds := by
  induction hn : cs.length using Nat.strongRecOn generalizing p q cs ds with
  | ind n ih =>
    subst hn
    unfold lexemesFrom
    unfold afterGap at h
    cases hp : skipGap .blanks p cs with
    | error e =>
      cases hq : skipGap .blanks q ds with
      | error e' =>
        rw [tokensFrom_of_error hp, tokensFrom_of_error hq]
        rfl
      | ok b => simp [hp, hq, Except.toOption] at h
    | ok a =>
      cases hq : skipGap .blanks q ds with
      | error e' => simp [hp, hq, Except.toOption] at h
      | ok b =>
        obtain ⟨p', r⟩ := a
        obtain ⟨q', r'⟩ := b
        obtain rfl : r = r' := by simpa [hp, hq, Except.toOption] using h
        cases r with
        | nil => rw [tokensFrom_of_end hp, tokensFrom_of_end hq]
        | cons c rest =>
          cases ht : readToken p' c rest with
          | error e =>
            cases ht' : readToken q' c rest with
            | error e' =>
              rw [tokensFrom_of_fault hp ht, tokensFrom_of_fault hq ht']
              rfl
            | ok x =>
              rw [readToken_place ht' p'] at ht
              cases ht
          | ok x =>
            obtain ⟨kind, lexeme, after⟩ := x
            have ht' := readToken_place ht q'
            have hlen : after.length < cs.length := by
              obtain ⟨tail, -, rfl⟩ := readToken_append ht
              have := skipGap_length hp
              simp at this
              omega
            have hrec := ih after.length hlen
              (afterGap_place rfl (p'.advance lexeme) (q'.advance lexeme) after) rfl
            rw [tokensFrom_of_token hp ht, tokensFrom_of_token hq ht']
            unfold lexemesFrom at hrec
            cases h1 : tokensFrom (p'.advance lexeme) after <;>
              cases h2 : tokensFrom (q'.advance lexeme) after <;>
              simp_all [Except.toOption, Except.map, Token.content]

private theorem lexemesFrom_place (p q : Place) (cs : List Char) :
    lexemesFrom p cs = lexemesFrom q cs :=
  lexemesFrom_congr (afterGap_place rfl p q cs)

/-- The first lexeme of a text and those behind it. -/
theorem lexemesFrom_of_token {p q : Place} {c : Char} {cs rest lexeme after : List Char}
    {kind : TokenKind} (h : afterGap .blanks p cs = some (c :: rest))
    (ht : readToken q c rest = .ok (kind, lexeme, after)) :
    lexemesFrom p cs = (lexemesFrom p after).map ((kind, String.ofList lexeme) :: ·) := by
  unfold afterGap at h
  cases hp : skipGap .blanks p cs with
  | error e => simp [hp, Except.toOption] at h
  | ok a =>
    obtain ⟨p', r⟩ := a
    obtain rfl : r = c :: rest := by simpa [hp, Except.toOption] using h
    rw [lexemesFrom_place p (p'.advance lexeme) after]
    unfold lexemesFrom
    rw [tokensFrom_of_token hp (readToken_place ht p')]
    cases h1 : tokensFrom (p'.advance lexeme) after <;>
      simp [Except.toOption, Except.map, Token.content]


/-- Where a token may start: neither at a blank nor at a comment. -/
def Stops (c : Char) (rest : List Char) : Prop :=
  isBlank c = false ∧ (c = '/' → rest.head? ≠ some '/' ∧ rest.head? ≠ some '*')

theorem stops_of_skipGap {g : Gap} {p q : Place} {cs rest : List Char} {c : Char}
    (h : skipGap g p cs = .ok (q, c :: rest)) : Stops c rest := by
  fun_induction skipGap g p cs with
  | case1 _ _ ih | case2 _ _ ih | case8 _ _ _ ih => exact ih h
  | case3 _ _ _ _ _ _ ih | case6 _ _ _ ih | case9 _ _ _ _ _ ih => exact ih h
  | case4 p c rest h1 h2 hb =>
    cases h
    refine ⟨by simpa using hb, fun hc => ⟨fun hr => ?_, fun hr => ?_⟩⟩
    · obtain ⟨r, rfl⟩ := List.head?_eq_some_iff.mp hr
      exact h1 r hc rfl
    · obtain ⟨r, rfl⟩ := List.head?_eq_some_iff.mp hr
      exact h2 r hc rfl
  | case5 | case7 | case10 => cases h

theorem Stops.skipGap {c : Char} {rest : List Char} (h : Stops c rest) (p : Place) :
    skipGap .blanks p (c :: rest) = .ok (p, c :: rest) := by
  rw [Script.skipGap, if_neg (by simp [h.1])]
  · rintro r hc rfl
    exact (h.2 hc).1 rfl
  · rintro r hc rfl
    exact (h.2 hc).2 rfl

theorem Stops.afterGap {c : Char} {rest : List Char} (h : Stops c rest) (p : Place) :
    afterGap .blanks p (c :: rest) = some (c :: rest) := by
  rw [Script.afterGap, h.skipGap]
  rfl

/-- What stands before a token reads as no lexeme, whatever is put behind it. -/
theorem lexemesFrom_gap {p q : Place} {cs rest : List Char} {c : Char}
    (h : skipGap .blanks p cs = .ok (q, c :: rest)) :
    ∃ gap, cs = gap ++ c :: rest ∧ q = p.advance gap ∧
      (∀ p' ds, afterGap .blanks p' (gap ++ ds) = afterGap .blanks p' ds) ∧
      ∀ p' ds, lexemesFrom p' (gap ++ ds) = lexemesFrom p' ds := by
  obtain ⟨gap, hcs, hq, -, hg⟩ := skipGap_prefix h
  exact ⟨gap, hcs, hq, hg, fun p' ds => lexemesFrom_congr (hg p' ds)⟩

/-- The tokens of a script stand in its text. -/
theorem laid_of_tokensFrom {p : Place} {cs : List Char} {ts : List Token}
    (h : tokensFrom p cs = .ok ts) : Laid p cs ts := by
  induction ts generalizing p cs with
  | nil => exact .nil
  | cons t ts ih =>
    obtain ⟨h, -⟩ | ⟨q, c, rest, kind, lexeme, after, more, hg, ht, hm, he⟩ := tokensFrom_eq_ok h
    · cases h
    · cases he
      obtain ⟨gap, rfl, rfl, -⟩ := lexemesFrom_gap hg
      obtain ⟨tail, rfl, rfl⟩ := readToken_append ht
      exact .cons gap (c :: tail) after kind (by simp) (ih hm)

/-- The characters that close a construct of a script. -/
private def isCloser (c : Char) : Bool := c == ';' || c == '\x7b' || c == '\x7d'

private theorem readToken_closer {c : Char} (h : isCloser c) (p : Place) (rest : List Char) :
    readToken p c rest = .ok (.punct, [c], rest) := by
  have hc : c = ';' ∨ c = '\x7b' ∨ c = '\x7d' := by
    simpa [isCloser, or_assoc] using h
  have hpair : rest.head?.any (isPair c) = false := by
    cases rest with
    | nil => rfl
    | cons d rest => rcases hc with rfl | rfl | rfl <;> simp [isPair]
  have hident : isIdentStart c = false := by rcases hc with rfl | rfl | rfl <;> decide
  have hsign : isSign c = true := by rcases hc with rfl | rfl | rfl <;> decide
  unfold readToken
  rcases hc with rfl | rfl | rfl <;> simp [hpair, hident, hsign]

/-- Behind a token that closes a construct a script can be cut. -/
private theorem tokensFrom_cut {p : Place} {cs : List Char} {ts : List Token} {j : Nat} {t : Token}
    (h : tokensFrom p cs = .ok ts) (ht : ts[j]? = some t)
    (hc : Language.script.closes t.content) :
    ∃ u w, cs = u ++ w ∧ (p.advance u).offset = t.stop ∧
      tokensFrom (p.advance u) w = .ok (ts.drop (j + 1)) ∧
      (∃ v c, u = v ++ [c] ∧ isCloser c) ∧
      ∀ q ds, lexemesFrom q (u ++ ds) =
        (lexemesFrom q ds).map ((ts.take (j + 1)).map Token.content ++ ·) := by
  induction j generalizing p cs ts with
  | zero =>
    obtain ⟨rfl, -⟩ | ⟨q, c, rest, kind, lexeme, after, more, hg, hr, hm, rfl⟩ := tokensFrom_eq_ok h
    · simp at ht
    obtain rfl : ⟨kind, String.ofList lexeme, q⟩ = t := by simpa using ht
    obtain ⟨gap, rfl, rfl, hgap, hlex⟩ := lexemesFrom_gap hg
    obtain ⟨tail, rfl, rfl⟩ := readToken_append hr
    obtain ⟨rfl, rfl, hcl⟩ : kind = .punct ∧ tail = [] ∧ isCloser c := by
      simp only [Language.closes, Token.content, Bool.and_eq_true, Bool.or_eq_true, beq_iff_eq,
        ← String.toList_inj, String.toList_ofList] at hc
      obtain ⟨rfl, (h | h) | h⟩ := hc <;> cases h <;> exact ⟨rfl, rfl, rfl⟩
    refine ⟨gap ++ [c], after, by simp, ?_, ?_, ⟨gap, c, rfl, hcl⟩, fun q ds => ?_⟩
    · rw [Place.advance_append, Place.advance_offset]
      simp [Token.stop]
    · simpa [Place.advance_append] using hm
    · have hcd : afterGap .blanks q (c :: ds) = some (c :: ds) := by
        refine Stops.afterGap ⟨(stops_of_skipGap hg).1, ?_⟩ q
        rintro rfl
        exact absurd hcl (by decide)
      rw [List.append_assoc, hlex, List.singleton_append,
        lexemesFrom_of_token hcd (readToken_closer hcl q ds)]
      rfl
  | succ j ih =>
    obtain ⟨rfl, -⟩ | ⟨q, c, rest, kind, lexeme, after, more, hg, hr, hm, rfl⟩ := tokensFrom_eq_ok h
    · simp at ht
    obtain ⟨gap, rfl, rfl, hgap, hlex⟩ := lexemesFrom_gap hg
    obtain ⟨tail, rfl, rfl⟩ := readToken_append hr
    rw [List.getElem?_cons_succ] at ht
    obtain ⟨u, w, rfl, hoff, hw, ⟨v, d, rfl, hd⟩, hu⟩ := ih hm ht
    have hne : v ++ [d] ≠ [] := by simp
    have hdot : v ++ [d] ≠ ['.'] := by
      intro he
      obtain ⟨-, hd'⟩ := List.append_inj' (show v ++ [d] = [] ++ ['.'] from he) rfl
      obtain rfl : d = '.' := by simpa using hd'
      exact absurd hd (by decide)
    refine ⟨gap ++ (c :: tail ++ (v ++ [d])), w, by simp, ?_, ?_, ⟨gap ++ (c :: tail ++ v), d, by simp, hd⟩,
      fun q ds => ?_⟩
    · rw [Place.advance_append, Place.advance_append]
      exact hoff
    · rw [Place.advance_append, Place.advance_append]
      exact hw
    · have hcd : afterGap .blanks q (c :: (tail ++ (v ++ [d] ++ ds))) =
          some (c :: (tail ++ (v ++ [d] ++ ds))) := by
        have hstop := stops_of_skipGap hg
        rw [Stops, head?_local (List.append_ne_nil_of_right_ne_nil tail hne)] at hstop
        exact Stops.afterGap hstop q
      rw [List.append_assoc, hlex, List.append_assoc, List.cons_append,
        lexemesFrom_of_token hcd (readToken_local hne hdot hr q ds), hu, Option.map_map]
      rfl

variable {text : List Char} {s : Source} {i : Nat}

theorem tokensFrom_of_source (h : source text = .ok s) :
    s.text = text ∧ tokensFrom .origin text = .ok s.tokens := by
  unfold source at h
  cases ht : tokensFrom .origin text with
  | error e => simp [ht, Except.map] at h
  | ok ts =>
    rw [ht] at h
    cases h
    exact ⟨rfl, rfl⟩

theorem laidOut_of_source (h : source text = .ok s) : s.LaidOut := by
  obtain ⟨rfl, ht⟩ := tokensFrom_of_source h
  exact laid_of_tokensFrom ht

/-- The names in a script have no colon in them. -/
theorem colon_not_mem_name (h : source text = .ok s) :
    ∀ t ∈ s.tokens, t.kind = .ident → ':' ∉ t.lexeme.toList :=
  colon_not_mem_of_tokensFrom (tokensFrom_of_source h).2

theorem lexemes?_eq (cs : List Char) (p : Place) :
    Language.script.lexemes? cs = lexemesFrom p cs := by
  rw [lexemesFrom_place p .origin]
  show (source cs).toOption.map Source.lexemes = _
  unfold lexemesFrom source
  cases tokensFrom .origin cs <;> rfl

/-- A line break between constructs reads as nothing. -/
theorem reads_newline : Language.script.Reads ['\n'] [] := by
  intro rest
  have hgap : afterGap .blanks .origin ('\n' :: rest) =
      afterGap .blanks (Place.origin.after '\n') rest := by
    unfold afterGap
    rw [skipGap, if_pos (by decide)]
    · exact fun _ h => absurd h (by decide)
    · exact fun _ h => absurd h (by decide)
  show Language.script.lexemes? ('\n' :: rest) = _
  rw [lexemes?_eq _ .origin, lexemes?_eq rest (Place.origin.after '\n'), lexemesFrom_congr hgap]
  simp

/-- At the start of a script, and behind each token that closes a construct. -/
private theorem source_cut (h : source text = .ok s) (hi : s.Closed .script i) :
    ∃ u w, s.text = u ++ w ∧ byteLength u = s.endAt i ∧
      tokensFrom (Place.origin.advance u) w = .ok (s.tokens.drop i) ∧
      Language.script.Reads u (s.lexemes.take i) := by
  obtain ⟨rfl, ht⟩ := tokensFrom_of_source h
  cases i with
  | zero => exact ⟨[], s.text, rfl, rfl, ht, by simpa using Language.Reads.nil⟩
  | succ j =>
    obtain ⟨x, hx, hc⟩ := hi
    rw [Source.lexemes, List.getElem?_map] at hx
    obtain ⟨t, hj, rfl⟩ := Option.map_eq_some_iff.mp hx
    obtain ⟨u, w, hs, hoff, hw, -, hu⟩ := tokensFrom_cut ht hj hc
    refine ⟨u, w, hs, ?_, hw, fun rest => ?_⟩
    · rw [Source.endAt_succ_of_getElem hj, ← hoff, Place.advance_offset]
      simp [Place.origin]
    · rw [lexemes?_eq _ .origin, lexemes?_eq rest .origin, hu, Source.lexemes, List.map_take]

/-- A script can be cut behind a token that closes a construct. -/
theorem cut_endAt (h : source text = .ok s) (hi : s.Closed .script i) :
    s.Cut .script (s.endAt i) i := by
  obtain ⟨u, w, hs, hk, -, hu⟩ := source_cut h hi
  exact ⟨u, w, hs, hk, hu⟩

/-- A script can be cut before a token that stands behind such a one. Behind the last token this
fails: a comment may be open there. -/
theorem cut_startAt (h : source text = .ok s) (hi : s.Closed .script i)
    (hlen : i < s.tokens.length) : s.Cut .script (s.startAt i) i := by
  obtain ⟨u, w, hs, hk, hw, hu⟩ := source_cut h hi
  rw [List.drop_eq_getElem_cons hlen] at hw
  obtain ⟨h0, -⟩ | ⟨q, c, rest, kind, lexeme, after, more, hg, hr, hm, he⟩ := tokensFrom_eq_ok hw
  · cases h0
  obtain ⟨gap, rfl, rfl, -, hlex⟩ := lexemesFrom_gap hg
  refine ⟨u ++ gap, c :: rest, by rw [hs, List.append_assoc], ?_, ?_⟩
  · have ht : s.tokens[i]? = some s.tokens[i] := List.getElem?_eq_getElem hlen
    have hplace := congrArg Token.place (List.cons.inj he).1
    rw [Source.startAt_of_getElem ht, Token.start, hplace]
    simp [Place.advance_offset, Place.origin]
  · have hgap : Language.script.Reads gap [] := by
      intro ds
      rw [lexemes?_eq _ .origin, lexemes?_eq ds .origin, hlex]
      simp
    simpa using hu.append hgap

end ModWeave.Script
