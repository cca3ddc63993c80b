import Mathlib.Data.List.Find
import Mathlib.Data.List.Forall2
import Mathlib.Data.List.Nodup

/-!
Lists side by side: what a relation between the elements of two lists says of their parts. And the last
element of a kind in a list.
-/
namespace ModWeave

theorem exists_of_forall₂_left {α β : Type} {R : α → β → Prop} {xs : List α} {ys : List β} {x : α}
    (h : List.Forall₂ R xs ys) (hx : x ∈ xs) : ∃ y ∈ ys, R x y := by
  induction h with
  | nil => cases hx
  | cons hxy _ ih =>
    rcases List.mem_cons.mp hx with rfl | hx
    · exact ⟨_, List.mem_cons_self, hxy⟩
    · obtain ⟨y, hy, hr⟩ := ih hx
      exact ⟨y, List.mem_cons_of_mem _ hy, hr⟩

theorem exists_of_forall₂_right {α β : Type} {R : α → β → Prop} {xs : List α} {ys : List β} {y : β}
    (h : List.Forall₂ R xs ys) (hy : y ∈ ys) : ∃ x ∈ xs, R x y := by
  obtain ⟨x, hx, hr⟩ := exists_of_forall₂_left h.flip hy
  exact ⟨x, hx, hr⟩

theorem forall₂_imp_of_mem {α β : Type} {R R' : α → β → Prop} {xs : List α} {ys : List β}
    (h : List.Forall₂ R xs ys) (hR : ∀ x ∈ xs, ∀ y, R x y → R' x y) : List.Forall₂ R' xs ys := by
  induction h with
  | nil => exact .nil
  | cons hxy _ ih =>
    rw [List.forall_mem_cons] at hR
    exact .cons (hR.1 _ hxy) (ih hR.2)

theorem mem_flatMap_of_forall₂ {α β γ : Type} {R : α → β → Prop} {f : β → List γ} {P : α → γ → Prop}
    {xs : List α} {ys : List β} (h : List.Forall₂ R xs ys)
    (hP : ∀ x y, R x y → ∀ z, z ∈ f y ↔ P x z) (z : γ) :
    z ∈ ys.flatMap f ↔ ∃ x ∈ xs, P x z := by
  induction h with
  | nil => simp
  | cons hxy _ ih => simp [hP _ _ hxy, ih]

/-- Elements that come from parts of different keys are apart when their parts are. -/
theorem pairwise_flatMap_of_forall₂ {α β γ : Type} {R : α → β → Prop} {S : α → α → Prop}
    {T : γ → γ → Prop} {f : β → List γ} {P : α → γ → Prop} {xs : List α} {ys : List β}
    (h : List.Forall₂ R xs ys) (hxs : xs.Pairwise S)
    (hP : ∀ x y, R x y → ∀ z ∈ f y, P x z) (hf : ∀ x y, R x y → (f y).Pairwise T)
    (hT : ∀ x x' z z', S x x' → P x z → P x' z' → T z z') : (ys.flatMap f).Pairwise T := by
  induction h with
  | nil => simp
  | @cons x y xs ys hxy hrest ih =>
    rw [List.pairwise_cons] at hxs
    rw [List.flatMap_cons, List.pairwise_append]
    refine ⟨hf x y hxy, ih hxs.2, fun z hz z' hz' => ?_⟩
    obtain ⟨y', hy', hz'⟩ := List.mem_flatMap.mp hz'
    obtain ⟨x', hx', hxy'⟩ := exists_of_forall₂_right hrest hy'
    exact hT x x' z z' (hxs.1 x' hx') (hP x y hxy z hz) (hP x' y' hxy' z' hz')

theorem exists_forall₂ {α β : Type} {R : α → β → Prop} {xs : List α} (h : ∀ x ∈ xs, ∃ y, R x y) :
    ∃ ys, List.Forall₂ R xs ys := by
  induction xs with
  | nil => exact ⟨[], .nil⟩
  | cons x xs ih =>
    rw [List.forall_mem_cons] at h
    obtain ⟨y, hy⟩ := h.1
    obtain ⟨ys, hys⟩ := ih h.2
    exact ⟨y :: ys, .cons hy hys⟩

/-- A computation over a list succeeds when it succeeds on every element. -/
theorem mapM_of_forall₂ {ε α β : Type} {f : α → Except ε β} {xs : List α} {ys : List β}
    (h : List.Forall₂ (fun x y => f x = .ok y) xs ys) : xs.mapM f = .ok ys := by
  induction h with
  | nil => rfl
  | cons hxy _ ih =>
    rw [List.mapM_cons, hxy, ih]
    rfl

/-- Lists of which each ends where the elements become of another kind are equal part by part. -/
theorem append_inj_of_kind {α : Type} {p : α → Bool} {xs xs' ys ys' : List α} (h : xs ++ xs' = ys ++ ys')
    (hxs : ∀ x ∈ xs ++ ys, p x = false) (hxs' : ∀ x ∈ xs' ++ ys', p x = true) : xs = ys ∧ xs' = ys' := by
  simp only [List.forall_mem_append] at hxs hxs'
  have hnone {zs : List α} (hzs : ∀ z ∈ zs, p z = false) : zs.filter p = [] :=
    List.filter_eq_nil_iff.mpr (by simpa using hzs)
  have hback := congrArg (List.filter p) h
  rw [List.filter_append, List.filter_append, hnone hxs.1, hnone hxs.2, List.filter_eq_self.mpr hxs'.1,
    List.filter_eq_self.mpr hxs'.2, List.nil_append, List.nil_append] at hback
  subst hback
  exact ⟨List.append_cancel_right h, rfl⟩

/-! ### The last element of a kind -/

variable {α β : Type}

theorem findRev?_concat (p : α → Bool) (xs : List α) (x : α) :
    (xs ++ [x]).findRev? p = if p x then some x else xs.findRev? p := by
  rw [List.findRev?_eq_find?_reverse, List.findRev?_eq_find?_reverse, List.reverse_concat,
    List.find?_cons]
  cases p x <;> rfl

theorem findRev?_append (p : α → Bool) (xs ys : List α) :
    (xs ++ ys).findRev? p = (ys.findRev? p).or (xs.findRev? p) := by
  rw [List.findRev?_eq_find?_reverse, List.findRev?_eq_find?_reverse, List.findRev?_eq_find?_reverse,
    List.reverse_append, List.find?_append]

/-- Where there is one element of a kind at most, the last one is the first. -/
theorem find?_eq_findRev? {p : α → Bool} {xs : List α} (h : xs.Pairwise fun x y => ¬(p x = true ∧ p y = true)) :
    xs.find? p = xs.findRev? p := by
  induction xs with
  | nil => rfl
  | cons x xs ih =>
    rw [List.pairwise_cons] at h
    have hsplit := findRev?_append p [x] xs
    rw [List.singleton_append] at hsplit
    rw [hsplit, ← ih h.2, List.find?_cons]
    cases hx : p x with
    | false => simp [List.findRev?, hx]
    | true =>
      have hnone : xs.find? p = none := List.find?_eq_none.2 fun y hy hpy => h.1 y hy ⟨hx, hpy⟩
      simp [List.findRev?, hx, hnone]

/-- The last element of a kind in some lists is the last of those that they give one by one. -/
theorem findRev?_flatten {p : α → Bool} {xss : List (List α)} (h : ∀ xs ∈ xss, xs.find? p = xs.findRev? p) :
    xss.flatten.findRev? p = (xss.filterMap (·.find? p)).getLast? := by
  induction xss with
  | nil => rfl
  | cons xs xss ih =>
    rw [List.forall_mem_cons] at h
    rw [List.flatten_cons, findRev?_append, ih h.2, ← h.1, List.filterMap_cons]
    cases hxs : xs.find? p with
    | none => simp
    | some x => cases hlast : (xss.filterMap (·.find? p)).getLast? <;> simp [List.getLast?_cons, hlast]

theorem findRev?_map (f : α → β) (p : β → Bool) (xs : List α) :
    (xs.map f).findRev? p = (xs.findRev? (p ∘ f)).map f := by
  rw [List.findRev?_eq_find?_reverse, List.findRev?_eq_find?_reverse, ← List.map_reverse,
    List.find?_map]

theorem findRev?_eq_some_iff {p : α → Bool} {xs : List α} {x : α} :
    xs.findRev? p = some x ↔
      p x = true ∧ ∃ before after, xs = before ++ x :: after ∧ ∀ y ∈ after, p y = false := by
  rw [List.findRev?_eq_find?_reverse, List.find?_eq_some_iff_append]
  constructor
  · rintro ⟨hx, after, before, hxs, hafter⟩
    refine ⟨hx, before.reverse, after.reverse, ?_, by simpa using hafter⟩
    simpa using congrArg List.reverse hxs
  · rintro ⟨hx, before, after, rfl, hafter⟩
    exact ⟨hx, after.reverse, before.reverse, by simp, by simpa using hafter⟩

theorem mem_of_findRev?_eq_some {p : α → Bool} {xs : List α} {x : α} (h : xs.findRev? p = some x) :
    x ∈ xs := by
  obtain ⟨-, before, after, rfl, -⟩ := findRev?_eq_some_iff.1 h
  simp

theorem findRev?_eq_none_iff {p : α → Bool} {xs : List α} :
    xs.findRev? p = none ↔ ∀ x ∈ xs, p x = false := by
  simp [List.findRev?_eq_find?_reverse]

/-- The last element of a kind is the last of each narrower kind it belongs to. -/
theorem findRev?_of_imp {p q : α → Bool} {xs : List α} {x : α} (h : xs.findRev? p = some x)
    (hqp : ∀ y, q y = true → p y = true) (hx : q x = true) : xs.findRev? q = some x := by
  obtain ⟨-, before, after, hxs, hafter⟩ := findRev?_eq_some_iff.1 h
  refine findRev?_eq_some_iff.2 ⟨hx, before, after, hxs, fun y hy => ?_⟩
  rw [Bool.eq_false_iff]
  exact fun hq => absurd (hqp y hq) (by simp [hafter y hy])

/-- The last of what is picked from a list is picked from an element behind which nothing of the
kind is picked. -/
theorem findRev?_filterMap_eq_some_iff {f : α → Option β} {p : β → Bool} {xs : List α} {y : β} :
    (xs.filterMap f).findRev? p = some y ↔
      p y = true ∧ ∃ before x after, xs = before ++ x :: after ∧ f x = some y ∧
        ∀ x' ∈ after, ∀ z, f x' = some z → p z = false := by
  rw [findRev?_eq_some_iff]
  constructor
  · rintro ⟨hy, front, back, hxs, hback⟩
    obtain ⟨before, rest, rfl, -, hrest⟩ := List.filterMap_eq_append_iff.1 hxs
    obtain ⟨skipped, x, after, rfl, hskipped, hx, hafter⟩ := List.filterMap_eq_cons_iff.1 hrest
    refine ⟨hy, before ++ skipped, x, after, by simp, hx, fun x' hx' z hz => ?_⟩
    exact hback z (hafter ▸ List.mem_filterMap.2 ⟨x', hx', hz⟩)
  · rintro ⟨hy, before, x, after, rfl, hx, hafter⟩
    refine ⟨hy, before.filterMap f, after.filterMap f, by simp [hx], fun z hz => ?_⟩
    obtain ⟨x', hx', hz⟩ := List.mem_filterMap.1 hz
    exact hafter x' hx' z hz

/-- Of things with different keys the last one with a key is the one. -/
theorem findRev?_eq_some_iff_of_nodup {α β : Type} [DecidableEq β] {key : α → β} {xs : List α} {x : α} {b : β}
    (h : (xs.map key).Nodup) : xs.findRev? (key · = b) = some x ↔ x ∈ xs ∧ key x = b := by
  constructor
  · intro hlast
    exact ⟨mem_of_findRev?_eq_some hlast, by simpa using (findRev?_eq_some_iff.1 hlast).1⟩
  · rintro ⟨hx, rfl⟩
    obtain hnone | ⟨y, hlast⟩ := (xs.findRev? (key · = key x)).eq_none_or_eq_some
    · simpa using findRev?_eq_none_iff.1 hnone x hx
    · have hkey : key y = key x := by simpa using (findRev?_eq_some_iff.1 hlast).1
      rw [hlast, List.inj_on_of_nodup_map h (mem_of_findRev?_eq_some hlast) hx hkey]

end ModWeave
