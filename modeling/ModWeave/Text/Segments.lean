/-!
Texts cut at separators. A text with `n` separators has `n + 1` segments, and joining them with the
separator gives the text back.
-/
namespace ModWeave.Text

/-- The parts of a text between the characters that separate them. -/
def segments (isSeparator : Char → Bool) : List Char → List (List Char)
  | [] => [[]]
  | c :: cs =>
    if isSeparator c then [] :: segments isSeparator cs
    else
      match segments isSeparator cs with
      | [] => [[c]]
      | s :: rest => (c :: s) :: rest

/-- The parts put together again, with `c` between them. -/
def joinWith (c : Char) : List (List Char) → List Char
  | [] => []
  | [s] => s
  | s :: rest => s ++ c :: joinWith c rest

theorem segments_ne_nil (isSeparator : Char → Bool) (cs : List Char) :
    segments isSeparator cs ≠ [] := by
  cases cs with
  | nil => simp [segments]
  | cons c cs =>
    unfold segments
    split
    · simp
    · split <;> simp

theorem joinWith_segments (c : Char) (cs : List Char) :
    joinWith c (segments (· == c) cs) = cs := by
  induction cs with
  | nil => rfl
  | cons d cs ih =>
    obtain ⟨s, rest, hs⟩ := List.exists_cons_of_ne_nil (segments_ne_nil (· == c) cs)
    rw [hs] at ih
    unfold segments
    split
    · next hd =>
      have : d = c := by simpa using hd
      rw [hs, this]
      exact congrArg (c :: ·) ih
    · rw [hs]
      cases rest with
      | nil => exact congrArg (d :: ·) ih
      | cons t rest => exact congrArg (d :: ·) ih

theorem not_mem_of_mem_segments {isSeparator : Char → Bool} {cs s : List Char}
    (h : s ∈ segments isSeparator cs) : ∀ c ∈ s, isSeparator c = false := by
  induction cs generalizing s with
  | nil => simp_all [segments]
  | cons c cs ih =>
    unfold segments at h
    split at h
    · rcases List.mem_cons.1 h with rfl | h
      · simp
      · exact ih h
    · next hc =>
      split at h
      · simp_all
      · next t rest hs =>
        rcases List.mem_cons.1 h with rfl | h
        · intro d hd
          rcases List.mem_cons.1 hd with rfl | hd
          · simpa using hc
          · exact ih (by simp [hs]) d hd
        · exact ih (by simp [hs, h])

/-- The part after the last `c`, if there is a `c`. -/
def afterLast? (c : Char) (cs : List Char) : Option (List Char) :=
  if c ∈ cs then some (cs.reverse.takeWhile (· != c)).reverse else none

end ModWeave.Text
