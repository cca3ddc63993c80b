import ModWeave.Token.Basic

/-! How the tokens of a source stand in its text: in order, each taking up bytes. -/
namespace ModWeave
open Text

namespace Text

theorem eq_nil_of_byteLength {cs : List Char} (h : byteLength cs = 0) : cs = [] := by
  cases cs with
  | nil => rfl
  | cons c cs =>
    have := c.utf8Size_pos
    simp only [byteLength_cons] at h
    omega

/-- Of two starts of a text the one with fewer bytes is a start of the other. -/
theorem exists_append_of_byteLength_le {u v u' v' : List Char} (h : u ++ v = u' ++ v')
    (hle : byteLength u ≤ byteLength u') : ∃ w, u' = u ++ w ∧ v = w ++ v' := by
  obtain ⟨w, rfl, hw⟩ | ⟨w, rfl, hw⟩ := List.append_eq_append_iff.mp h
  · exact ⟨w, rfl, hw⟩
  · have hnil : w = [] := eq_nil_of_byteLength (by rw [byteLength_append] at hle; omega)
    subst hnil
    exact ⟨[], by simp, by simpa using hw.symm⟩

/-- A run of characters ends where it did as long as the character behind it stays. -/
theorem takeWhile_local {p : Char → Bool} {run w cs : List Char} (hw : w ≠ [])
    (h : (run ++ (w ++ cs)).takeWhile p = run) (ds : List Char) :
    (run ++ (w ++ ds)).takeWhile p = run ∧ (run ++ (w ++ ds)).dropWhile p = w ++ ds := by
  obtain ⟨d, w, rfl⟩ := List.exists_cons_of_ne_nil hw
  induction run with
  | nil =>
    simp only [List.nil_append, List.cons_append, List.takeWhile_cons, List.dropWhile_cons] at h ⊢
    split at h <;> simp_all
  | cons c run ih =>
    simp only [List.cons_append, List.takeWhile_cons, List.dropWhile_cons] at h ⊢
    split at h <;> simp_all

theorem head?_local {tail w cs ds : List Char} (h : tail ++ w ≠ []) :
    (tail ++ (w ++ cs)).head? = (tail ++ (w ++ ds)).head? := by
  rw [← List.append_assoc, ← List.append_assoc]
  obtain ⟨d, z, hz⟩ := List.exists_cons_of_ne_nil h
  rw [hz]
  rfl

end Text

/-- Offset behind the first `i` tokens. -/
def Source.endAt (s : Source) : Nat → Nat
  | 0 => 0
  | i + 1 => (s.tokens[i]?.map Token.stop).getD (byteLength s.text)

/-- Tokens that stand in this order in a text that starts at a place, with room in between. -/
inductive Laid : Place → List Char → List Token → Prop
  | nil {p : Place} {cs : List Char} : Laid p cs []
  | cons {p : Place} (gap lexeme after : List Char) (kind : TokenKind) {ts : List Token}
      (h : lexeme ≠ []) (more : Laid ((p.advance gap).advance lexeme) after ts) :
      Laid p (gap ++ (lexeme ++ after)) (⟨kind, String.ofList lexeme, p.advance gap⟩ :: ts)

/-- The text has a character boundary at byte `k`. -/
def Source.Boundary (s : Source) (k : Nat) : Prop :=
  ∃ before after, s.text = before ++ after ∧ byteLength before = k

namespace Laid

variable {p : Place} {cs : List Char} {ts : List Token} {t : Token} {i : Nat}

private theorem byteLength_pos {lexeme : List Char} (h : lexeme ≠ []) : 0 < byteLength lexeme := by
  rcases Nat.eq_zero_or_pos (byteLength lexeme) with h0 | h0
  · exact absurd (eq_nil_of_byteLength h0) h
  · exact h0

/-- Each token stands in the text behind the place where the text starts. -/
theorem exists_split (h : Laid p cs ts) (ht : ts[i]? = some t) :
    ∃ before after, cs = before ++ t.lexeme.toList ++ after ∧
      t.start = p.offset + byteLength before ∧ 0 < byteLength t.lexeme.toList := by
  induction h generalizing i with
  | nil => simp at ht
  | @cons p gap lexeme after kind ts hne more ih =>
    cases i with
    | zero =>
      simp only [List.length_cons, Nat.zero_lt_succ, getElem?_pos, List.getElem_cons_zero,
        Option.some.injEq] at ht
      subst ht
      refine ⟨gap, after, ?_, ?_, ?_⟩
      · simp
      · exact Place.advance_offset p gap
      · simpa using byteLength_pos hne
    | succ i =>
      rw [List.getElem?_cons_succ] at ht
      obtain ⟨before, after', rfl, hs, hpos⟩ := ih ht
      refine ⟨gap ++ (lexeme ++ before), after', by simp, ?_, hpos⟩
      simp only [hs, Place.advance_offset, byteLength_append]
      omega

/-- A token ends before the next one starts. -/
theorem stop_le_start {u : Token} (h : Laid p cs ts) (ht : ts[i]? = some t)
    (hu : ts[i + 1]? = some u) : t.stop ≤ u.start := by
  induction h generalizing i with
  | nil => simp at ht
  | @cons p gap lexeme after kind ts hne more ih =>
    rw [List.getElem?_cons_succ] at hu
    cases i with
    | succ i =>
      rw [List.getElem?_cons_succ] at ht
      exact ih ht hu
    | zero =>
      simp only [List.length_cons, Nat.zero_lt_succ, getElem?_pos, List.getElem_cons_zero,
        Option.some.injEq] at ht
      subst ht
      obtain ⟨before, -, -, hs, -⟩ := more.exists_split hu
      simp only [hs, Token.stop, Place.advance_offset, String.toList_ofList]
      omega

/-- Tokens behind something passed over. -/
theorem behind {gap : List Char} (h : Laid (p.advance gap) cs ts) :
    Laid p (gap ++ cs) ts := by
  cases h with
  | nil => exact .nil
  | cons gap' lexeme after kind hne more =>
    rw [← List.append_assoc]
    rw [← Place.advance_append p gap gap'] at more ⊢
    exact .cons (gap ++ gap') lexeme after kind hne more

end Laid

namespace Source

variable {s : Source} {i j : Nat}

/-- The tokens of a source stand in its text. -/
abbrev LaidOut (s : Source) : Prop := Laid .origin s.text s.tokens

theorem startAt_of_getElem {t : Token} (ht : s.tokens[i]? = some t) : s.startAt i = t.start := by
  simp [startAt, ht]

theorem endAt_succ_of_getElem {t : Token} (ht : s.tokens[i]? = some t) : s.endAt (i + 1) = t.stop := by
  simp [endAt, ht]

theorem LaidOut.boundary_startAt (h : s.LaidOut) (i : Nat) : s.Boundary (s.startAt i) := by
  cases ht : s.tokens[i]? with
  | none => exact ⟨s.text, [], by simp, by simp [startAt, ht]⟩
  | some t =>
    obtain ⟨before, after, hs, hk, -⟩ := h.exists_split ht
    refine ⟨before, t.lexeme.toList ++ after, by rw [hs, List.append_assoc], ?_⟩
    rw [startAt_of_getElem ht, hk]
    simp [Place.origin]

theorem LaidOut.boundary_endAt (h : s.LaidOut) (i : Nat) : s.Boundary (s.endAt i) := by
  cases i with
  | zero => exact ⟨[], s.text, rfl, rfl⟩
  | succ i =>
    cases ht : s.tokens[i]? with
    | none => exact ⟨s.text, [], by simp, by simp [endAt, ht]⟩
    | some t =>
      obtain ⟨before, after, hs, hk, -⟩ := h.exists_split ht
      refine ⟨before ++ t.lexeme.toList, after, hs, ?_⟩
      rw [endAt_succ_of_getElem ht, byteLength_append]
      unfold Token.start at hk
      simp [Token.stop, hk, Place.origin]

theorem Boundary.le {k : Nat} (h : s.Boundary k) : k ≤ byteLength s.text := by
  obtain ⟨before, after, hs, rfl⟩ := h
  rw [hs, byteLength_append]
  omega

/-- A token takes up bytes. -/
theorem LaidOut.startAt_lt_endAt (h : s.LaidOut) (hi : i < s.tokens.length) :
    s.startAt i < s.endAt (i + 1) := by
  obtain ⟨t, ht⟩ : ∃ t, s.tokens[i]? = some t := ⟨_, List.getElem?_eq_getElem hi⟩
  obtain ⟨-, -, -, -, hpos⟩ := h.exists_split ht
  rw [startAt_of_getElem ht, endAt_succ_of_getElem ht]
  unfold Token.stop Token.start
  omega

theorem LaidOut.endAt_le_startAt (h : s.LaidOut) (i : Nat) : s.endAt i ≤ s.startAt i := by
  cases hu : s.tokens[i]? with
  | none =>
    rw [show s.startAt i = byteLength s.text by simp [startAt, hu]]
    exact (h.boundary_endAt i).le
  | some u =>
    cases i with
    | zero => exact Nat.zero_le _
    | succ i =>
      obtain ⟨t, ht⟩ : ∃ t, s.tokens[i]? = some t := by
        have := (List.getElem?_eq_some_iff.mp hu).1
        exact ⟨_, List.getElem?_eq_getElem (by omega)⟩
      rw [endAt_succ_of_getElem ht, startAt_of_getElem hu]
      exact h.stop_le_start ht hu

theorem LaidOut.endAt_mono (h : s.LaidOut) (hij : i ≤ j) : s.endAt i ≤ s.endAt j := by
  induction hij with
  | refl => exact Nat.le_refl _
  | @step j _ ih =>
    apply Nat.le_trans ih
    rcases Nat.lt_or_ge j s.tokens.length with hj | hj
    · exact Nat.le_trans (h.endAt_le_startAt j) (Nat.le_of_lt (h.startAt_lt_endAt hj))
    · have : s.tokens[j]? = none := List.getElem?_eq_none hj
      rw [show s.endAt (j + 1) = byteLength s.text by simp [endAt, this]]
      exact (h.boundary_endAt j).le

theorem LaidOut.startAt_lt_endAt_of_lt (h : s.LaidOut) (hij : i < j) (hi : i < s.tokens.length) :
    s.startAt i < s.endAt j :=
  Nat.lt_of_lt_of_le (h.startAt_lt_endAt hi) (h.endAt_mono hij)

theorem LaidOut.endAt_le_startAt_of_le (h : s.LaidOut) (hij : i ≤ j) : s.endAt i ≤ s.startAt j :=
  Nat.le_trans (h.endAt_mono hij) (h.endAt_le_startAt j)

theorem LaidOut.startAt_mono (h : s.LaidOut) (hij : i ≤ j) : s.startAt i ≤ s.startAt j := by
  rcases Nat.lt_or_ge i s.tokens.length with hi | hi
  · rcases Nat.eq_or_lt_of_le hij with rfl | hlt
    · exact Nat.le_refl _
    · have := h.startAt_lt_endAt_of_lt hlt hi
      exact Nat.le_trans (Nat.le_of_lt this) (h.endAt_le_startAt j)
  · have hend {k : Nat} (hk : s.tokens.length ≤ k) : s.startAt k = byteLength s.text := by
      simp [startAt, List.getElem?_eq_none hk]
    exact Nat.le_of_eq ((hend hi).trans (hend (Nat.le_trans hi hij)).symm)

/-- Between two boundaries in order stands a part of the text. -/
theorem Boundary.between {k k' : Nat} (h : s.Boundary k) (h' : s.Boundary k') (hk : k ≤ k') :
    ∃ cs, s.textBetween? k k' = some cs := by
  obtain ⟨u, v, ht, rfl⟩ := h
  obtain ⟨u', v', ht', rfl⟩ := h'
  obtain ⟨w, rfl, -⟩ := exists_append_of_byteLength_le (ht.symm.trans ht') hk
  exact ⟨w, by rw [Source.textBetween?, ht', byteLength_append, slice?_append]⟩

/-- The bytes of a range of tokens run from the first token to the last. -/
theorem byteRange_of_lt {i j : Nat} (h : i < j) : s.byteRange ⟨i, j⟩ = (s.startAt i, s.endAt j) := by
  obtain ⟨j, rfl⟩ : ∃ k, j = k + 1 := ⟨j - 1, by omega⟩
  simp [byteRange, h, endAt]

/-! Within the tokens that there are, no token is missing. -/

theorem byteRange?_eq_some {e : Extent} (h : e.stop ≤ s.tokens.length) : s.byteRange? e = some (s.byteRange e) :=
  if_neg fun hout => Nat.not_lt.mpr h hout.2

end Source

private theorem sameRun?_eq_some {n : Nat} {ours theirs : List Token} (h : n ≤ ours.length)
    (h' : n ≤ theirs.length) : sameRun? n ours theirs = some (sameTokens (ours.take n) (theirs.take n)) := by
  induction n generalizing ours theirs with
  | zero => rfl
  | succ n ih =>
    match ours, theirs with
    | a :: ours, b :: theirs =>
      rw [sameRun?, ih (Nat.le_of_succ_le_succ h) (Nat.le_of_succ_le_succ h')]
      split <;> simp_all [sameTokens]

/-- Ranges of tokens are the same when they hold the same tokens. -/
theorem Source.sameTokens?_eq_some {s t : Source} {e f : Extent} (h : e.stop ≤ s.tokens.length)
    (h' : f.stop ≤ t.tokens.length) :
    s.sameTokens? e t f = some (sameTokens (s.slice e) (t.slice f)) := by
  have hours : e.stop - e.first ≤ (s.tokens.drop e.first).length := by
    rw [List.length_drop]
    omega
  have htheirs : f.stop - f.first ≤ (t.tokens.drop f.first).length := by
    rw [List.length_drop]
    omega
  rw [sameTokens?]
  split
  · next heq => rw [sameRun?_eq_some hours (heq ▸ htheirs), slice, slice, heq]
  · next hne =>
    have hlengths : (s.slice e).length ≠ (t.slice f).length := by
      rwa [slice, slice, List.length_take_of_le hours, List.length_take_of_le htheirs]
    refine congrArg some (Bool.eq_false_iff.mpr fun hsame => hlengths ?_).symm
    simpa using congrArg List.length (beq_iff_eq.mp hsame)

end ModWeave
