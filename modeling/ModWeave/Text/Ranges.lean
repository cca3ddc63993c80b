/-! Sets of code points given by ascending closed ranges. -/
namespace ModWeave.Text

/-- Whether one of the ascending ranges `[lo, hi]` holds `n`. The search ends at the first range that
starts beyond `n`. -/
def covers : List (Nat × Nat) → Nat → Bool
  | [], _ => false
  | (lo, hi) :: rest, n => if n < lo then false else n ≤ hi || covers rest n

/-- A member lies in one of the listed ranges. -/
theorem exists_of_covers {ranges : List (Nat × Nat)} {n : Nat} (h : covers ranges n = true) :
    ∃ r ∈ ranges, r.1 ≤ n ∧ n ≤ r.2 := by
  induction ranges with
  | nil => simp [covers] at h
  | cons r rest ih =>
    obtain ⟨lo, hi⟩ := r
    simp only [covers] at h
    split at h
    · simp at h
    · rename_i hlo
      simp only [Bool.or_eq_true, decide_eq_true_eq] at h
      rcases h with h | h
      · exact ⟨(lo, hi), by simp, by simp; omega, h⟩
      · obtain ⟨q, hq, hb⟩ := ih h
        exact ⟨q, by simp [hq], hb⟩

end ModWeave.Text
