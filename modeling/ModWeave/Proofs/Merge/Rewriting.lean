import ModWeave.Proofs.Merge.Edits

/-! Edits carried out on a text, told place by place. Where the edits are decides whether they can be
carried out and what comes of it; the order in which they are given does not. -/
namespace ModWeave
open Text

/-- What becomes of a text at each of its bytes. -/
structure Rewriting where
  /-- What is put in front of the byte. -/
  added : Nat → List Char
  /-- What stands for a construct that starts there. -/
  replacement : Nat → List Char
  /-- Whether the byte belongs to such a construct. -/
  isCut : Nat → Bool

/-- A text from byte `k` on as it is rewritten. -/
def Rewriting.apply (w : Rewriting) (k : Nat) : List Char → List Char
  | [] => w.added k
  | x :: cs => w.added k ++ (w.replacement k ++ ((if w.isCut k then [] else [x]) ++
      w.apply (k + x.utf8Size) cs))

namespace Rewriting

variable {w w' : Rewriting} {k : Nat}

/-- Only what is done from byte `k` on counts. -/
theorem apply_congr (h : ∀ j, k ≤ j → w.added j = w'.added j ∧ w.replacement j = w'.replacement j ∧
    w.isCut j = w'.isCut j) (cs : List Char) : w.apply k cs = w'.apply k cs := by
  induction cs generalizing k with
  | nil => exact (h k (Nat.le_refl k)).1
  | cons x cs ih =>
    obtain ⟨hadded, hreplacement, hcut⟩ := h k (Nat.le_refl k)
    rw [apply, apply, hadded, hreplacement, hcut, ih fun j hj => h j (by omega)]

/-- Characters at which nothing goes in stay all, or are cut all. -/
theorem apply_append {b : Bool} {cs ds : List Char} (h : ∀ j, k ≤ j → j < k + byteLength cs →
    w.added j = [] ∧ w.replacement j = [] ∧ w.isCut j = b) :
    w.apply k (cs ++ ds) = (if b then [] else cs) ++ w.apply (k + byteLength cs) ds := by
  induction cs generalizing k with
  | nil => simp
  | cons x cs ih =>
    have hpos := x.utf8Size_pos
    rw [byteLength_cons] at h
    obtain ⟨hadded, hreplacement, hcut⟩ := h k (Nat.le_refl k) (by omega)
    rw [List.cons_append, apply, hadded, hreplacement, hcut, ih fun j hj hlt => h j (by omega) (by omega),
      byteLength_cons, Nat.add_assoc]
    cases b <;> rfl

/-- What edits do at each byte. -/
def ofEdits (es : List Edit) : Rewriting where
  added k := (es.filter fun e => e.start == k && e.stop == k).flatMap Edit.replacement
  replacement k := (es.filter fun e => e.start == k && k < e.stop).flatMap Edit.replacement
  isCut k := es.any fun e => e.start ≤ k && k < e.stop

variable {e : Edit} {es fs : List Edit}

theorem added_cons : (ofEdits (e :: es)).added k =
    (if e.start = k ∧ e.stop = k then e.replacement else []) ++ (ofEdits es).added k := by
  simp only [ofEdits, List.filter_cons, Bool.and_eq_true, beq_iff_eq]
  split <;> simp

theorem replacement_cons : (ofEdits (e :: es)).replacement k =
    (if e.start = k ∧ k < e.stop then e.replacement else []) ++ (ofEdits es).replacement k := by
  simp only [ofEdits, List.filter_cons, Bool.and_eq_true, beq_iff_eq, decide_eq_true_eq]
  split <;> simp

theorem isCut_cons : (ofEdits (e :: es)).isCut k =
    (decide (e.start ≤ k ∧ k < e.stop) || (ofEdits es).isCut k) := by
  simp [ofEdits]

/-- In front of all edits nothing is done. -/
theorem ofEdits_idle (h : ∀ e ∈ es, k < e.start) :
    (ofEdits es).added k = [] ∧ (ofEdits es).replacement k = [] ∧ (ofEdits es).isCut k = false := by
  induction es with
  | nil => exact ⟨rfl, rfl, rfl⟩
  | cons e es ih =>
    rw [List.forall_mem_cons] at h
    obtain ⟨hadded, hreplacement, hcut⟩ := ih h.2
    rw [added_cons, replacement_cons, isCut_cons, hadded, hreplacement, hcut, if_neg (by omega),
      if_neg (by omega), decide_eq_false (by omega)]
    exact ⟨rfl, rfl, rfl⟩

/-- An edit has no part in what is done behind it. -/
theorem apply_behind {j : Nat} (h : e.start < j) (h' : e.stop ≤ j) (cs : List Char) :
    (ofEdits (e :: es)).apply j cs = (ofEdits es).apply j cs := by
  refine apply_congr (fun i hi => ?_) cs
  rw [added_cons, replacement_cons, isCut_cons, if_neg (by omega), if_neg (by omega),
    decide_eq_false (by omega)]
  exact ⟨rfl, rfl, rfl⟩

/-- An insertion comes first at its place. -/
theorem apply_insertion (h : e.start = k) (h' : e.stop = k) (cs : List Char) :
    (ofEdits (e :: es)).apply k cs = e.replacement ++ (ofEdits es).apply k cs := by
  cases cs with
  | nil => rw [apply, apply, added_cons, if_pos ⟨h, h'⟩]
  | cons x cs =>
    have hpos := x.utf8Size_pos
    rw [apply, apply, added_cons, replacement_cons, isCut_cons, if_pos ⟨h, h'⟩, if_neg (by omega),
      decide_eq_false (by omega), apply_behind (by omega) (by omega), List.append_assoc]
    rfl

/-- A replacement stands for the characters from where it starts to where it stops. -/
theorem apply_replacement {cut cs : List Char} (h : e.start = k) (hne : e.start < e.stop)
    (hstop : k + byteLength cut = e.stop) (hes : ∀ f ∈ es, e.stop ≤ f.start) :
    (ofEdits (e :: es)).apply k (cut ++ cs) = e.replacement ++ (ofEdits es).apply e.stop cs := by
  have hidle {j : Nat} (hj : j < e.stop) := ofEdits_idle (k := j) fun f hf => Nat.lt_of_lt_of_le hj (hes f hf)
  cases cut with
  | nil =>
    rw [byteLength_nil] at hstop
    omega
  | cons x cut =>
    have hpos := x.utf8Size_pos
    rw [byteLength_cons] at hstop
    obtain ⟨hadded, hreplacement, -⟩ := hidle (j := k) (by omega)
    have hrest : (ofEdits (e :: es)).apply (k + x.utf8Size) (cut ++ cs) =
        (ofEdits (e :: es)).apply (k + x.utf8Size + byteLength cut) cs := by
      refine (apply_append (b := true) fun j hj hlt => ?_).trans (List.nil_append _)
      obtain ⟨hadded, hreplacement, hcut⟩ := hidle (j := j) (by omega)
      rw [added_cons, replacement_cons, isCut_cons, hadded, hreplacement, hcut, if_neg (by omega),
        if_neg (by omega), decide_eq_true (by omega)]
      exact ⟨rfl, rfl, rfl⟩
    rw [List.cons_append, apply, hrest, added_cons, replacement_cons, isCut_cons, hadded, hreplacement,
      if_neg (by omega), if_pos (by omega), decide_eq_true (by omega),
      show k + x.utf8Size + byteLength cut = e.stop by omega, apply_behind hne (Nat.le_refl _)]
    simp

end Rewriting

section Splicing

variable {s : Source} {es fs : List Edit} {cursor k : Nat}

/-- Edits that stand one behind the other are carried out as the rewriting tells. -/
theorem splice_of_row {before rest : List Char} (hrest : s.text = before ++ rest)
    (hcursor : byteLength before = cursor) (hfits : ∀ e ∈ es, e.Fits s)
    (hrow : es.Pairwise fun e f => e.stop ≤ f.start) (hle : ∀ e ∈ es, cursor ≤ e.start) :
    splice s.text cursor es = .ok ((Rewriting.ofEdits es).apply cursor rest) := by
  induction es generalizing cursor before rest with
  | nil =>
    have hkept : (Rewriting.ofEdits []).apply cursor (rest ++ []) =
        rest ++ (Rewriting.ofEdits []).apply (cursor + byteLength rest) [] :=
      Rewriting.apply_append (b := false) fun _ _ _ => ⟨rfl, rfl, rfl⟩
    rw [List.append_nil] at hkept
    rw [splice, hrest, ← hcursor, dropBytes?_append, hcursor, hkept]
    simp [Rewriting.apply, Rewriting.ofEdits]
  | cons e es ih =>
    rw [List.forall_mem_cons] at hfits hle
    rw [List.pairwise_cons] at hrow
    obtain ⟨hordered, ⟨u, v, hu, hstart⟩, ⟨u', v', hu', hstop⟩⟩ := hfits.1
    obtain ⟨kept, rfl, rfl⟩ := exists_append_of_byteLength_le (hrest.symm.trans hu) (by omega)
    obtain ⟨cut, rfl, rfl⟩ := exists_append_of_byteLength_le (hu.symm.trans hu') (by omega)
    simp only [byteLength_append] at hstart hstop
    have hslice : slice? s.text cursor e.start = some kept := by
      rw [hu, ← hstart, ← hcursor]
      exact slice?_append before kept _
    have hmore := ih hu' (by simp only [byteLength_append]; exact hstop) hfits.2 hrow.2 hrow.1
    have hfront : (Rewriting.ofEdits (e :: es)).apply cursor (kept ++ (cut ++ v')) =
        kept ++ (Rewriting.ofEdits (e :: es)).apply e.start (cut ++ v') := by
      rw [Rewriting.apply_append (b := false) fun j hj hlt => Rewriting.ofEdits_idle fun f hf => ?_,
        show cursor + byteLength kept = e.start by omega]
      · rfl
      · rcases List.mem_cons.mp hf with rfl | hf
        · omega
        · have := hrow.1 f hf
          omega
    rw [splice, if_neg (Nat.not_lt.mpr hle.1), hslice, hmore, hfront]
    rcases Nat.eq_or_lt_of_le hordered with heq | hlt
    · obtain rfl : cut = [] := eq_nil_of_byteLength (by omega)
      rw [List.nil_append, Rewriting.apply_insertion rfl heq.symm, ← heq]
      simp [Except.map]
    · rw [Rewriting.apply_replacement rfl hlt (by omega) hrow.1]
      simp [Except.map]

/-- Where edits in order do not stand one behind the other, that is told. -/
theorem splice_of_not_row (hcursor : s.Boundary cursor) (hfits : ∀ e ∈ es, e.Fits s)
    (hsorted : es.Pairwise fun e f => e.notAfter f = true) (hle : ∀ e ∈ es, cursor ≤ e.start)
    (hrow : ¬ es.Pairwise fun e f => e.stop ≤ f.start) : ∃ k, splice s.text cursor es = .error (.overlap k) := by
  induction es generalizing cursor with
  | nil => exact absurd .nil hrow
  | cons e es ih =>
    rw [List.forall_mem_cons] at hfits hle
    rw [List.pairwise_cons] at hsorted hrow
    obtain ⟨kept, hkept⟩ := hcursor.between hfits.1.start hle.1
    rw [Source.textBetween?] at hkept
    suffices ∃ k, splice s.text e.stop es = .error (.overlap k) by
      obtain ⟨k, hk⟩ := this
      exact ⟨k, by rw [splice, if_neg (Nat.not_lt.mpr hle.1), hkept, hk]; rfl⟩
    by_cases hfirst : ∀ f ∈ es, e.stop ≤ f.start
    · exact ih hfits.1.stop hfits.2 hsorted.2 hfirst fun h => hrow ⟨hfirst, h⟩
    · simp only [not_forall, Nat.not_le] at hfirst
      obtain ⟨f, hf, hlt⟩ := hfirst
      cases es with
      | nil => cases hf
      | cons g es =>
        -- the edit that comes next starts no later than the one that reaches back
        have hg : g.start ≤ f.start := by
          rcases List.mem_cons.mp hf with rfl | hf
          · exact Nat.le_refl _
          · have := (List.pairwise_cons.mp hsorted.2).1 f hf
            simp only [Edit.notAfter, Bool.or_eq_true, decide_eq_true_eq, Bool.and_eq_true, beq_iff_eq]
              at this
            omega
        exact ⟨g.start, by rw [splice, if_pos (by omega)]⟩

/-- What is said of edits that cannot be carried out depends on their places alone. -/
theorem splice_error_congr {text : List Char} {x : MergeError}
    (h : es.map (fun e => (e.start, e.stop)) = fs.map fun e => (e.start, e.stop))
    (hx : splice text cursor es = .error x) : splice text cursor fs = .error x := by
  induction es generalizing cursor fs with
  | nil =>
    obtain rfl : fs = [] := by simpa using h.symm
    exact hx
  | cons e es ih =>
    cases fs with
    | nil => cases h
    | cons f fs =>
      simp only [List.map_cons, List.cons.injEq, Prod.mk.injEq] at h
      obtain ⟨⟨hstart, hstop⟩, h⟩ := h
      rw [splice, ← hstart, ← hstop]
      rw [splice] at hx
      by_cases hback : e.start < cursor
      · rw [if_pos hback] at hx ⊢
        exact hx
      · rw [if_neg hback] at hx ⊢
        cases hkept : slice? text cursor e.start with
        | none => rwa [hkept] at hx
        | some kept =>
          rw [hkept] at hx
          cases hmore : splice text e.stop es with
          | ok more =>
            rw [hmore] at hx
            cases hx
          | error y =>
            rw [hmore] at hx
            cases hx
            rw [ih h hmore]
            rfl

end Splicing

section Sorting

variable {s : Source} {es fs : List Edit}

/-- Sorting keeps elements of one rank in their order. -/
theorem filter_mergeSort {p : Edit → Bool} (h : ∀ e f, p e = true → p f = true → e.notAfter f = true)
    (es : List Edit) : (es.mergeSort Edit.notAfter).filter p = es.filter p := by
  have hlevel : (es.filter p).Pairwise fun e f => e.notAfter f = true :=
    List.pairwise_of_forall_mem_list fun e he f hf =>
      h e f (List.of_mem_filter he) (List.of_mem_filter hf)
  have hsub := (List.sublist_mergeSort Edit.notAfter_trans Edit.notAfter_total hlevel
    List.filter_sublist).filter p
  rw [List.filter_filter, funext fun e => Bool.and_self (p e)] at hsub
  exact (hsub.eq_of_length ((List.mergeSort_perm es _).filter p).length_eq.symm).symm

/-- Edits beside one another do the same in whatever order they are, as long as insertions at one place
keep theirs. -/
theorem Rewriting.ofEdits_congr (hbeside : es.Pairwise Edit.Beside) (hperm : es.Perm fs)
    (hadded : ∀ k, (es.filter fun e => e.start == k && e.stop == k) =
      fs.filter fun e => e.start == k && e.stop == k) : ofEdits es = ofEdits fs := by
  have hbeside' : fs.Pairwise Edit.Beside := (hperm.pairwise_iff fun h => Or.symm h).mp hbeside
  -- of edits that cut, one starts at a place at most
  have hone {gs : List Edit} (hgs : gs.Pairwise Edit.Beside) (k : Nat) :
      (gs.filter fun e => e.start == k && decide (k < e.stop)).Pairwise fun _ _ => False := by
    refine (hgs.filter _).imp_of_mem fun {e f} he hf hef => ?_
    have he := List.of_mem_filter he
    have hf := List.of_mem_filter hf
    simp only [Bool.and_eq_true, beq_iff_eq, decide_eq_true_eq] at he hf
    rcases hef with hef | hef <;> omega
  have hreplacement (k : Nat) : (es.filter fun e => e.start == k && decide (k < e.stop)) =
      fs.filter fun e => e.start == k && decide (k < e.stop) :=
    (hperm.filter _).eq_of_pairwise (fun _ _ _ _ h => h.elim) (hone hbeside k) (hone hbeside' k)
  simp only [ofEdits, hadded, hreplacement, hperm.any_eq]

/-- Edits beside one another are carried out. -/
theorem splice_of_pairwise_beside (hfits : ∀ e ∈ es, e.Fits s) (h : es.Pairwise Edit.Beside) :
    splice s.text 0 (es.mergeSort Edit.notAfter) = .ok ((Rewriting.ofEdits es).apply 0 s.text) := by
  have hperm := List.mergeSort_perm es Edit.notAfter
  rw [Rewriting.ofEdits_congr h hperm.symm fun k => (filter_mergeSort (fun e f he hf => ?_) es).symm]
  · have hfits' {e : Edit} (he : e ∈ es.mergeSort Edit.notAfter) : e.Fits s := hfits e (hperm.mem_iff.mp he)
    refine splice_of_row (show s.text = [] ++ s.text from rfl) rfl (fun e he => hfits' he) ?_ fun e _ => Nat.zero_le _
    have hsorted := List.pairwise_mergeSort Edit.notAfter_trans Edit.notAfter_total es
    have hbeside := (hperm.pairwise_iff fun h => Or.symm h).mpr h
    refine (hsorted.and hbeside).imp_of_mem fun {e f} he hf hef => ?_
    have he := (hfits' he).ordered
    have hf := (hfits' hf).ordered
    obtain ⟨hnotAfter, hef⟩ := hef
    simp only [Edit.notAfter, Bool.or_eq_true, decide_eq_true_eq, Bool.and_eq_true, beq_iff_eq] at hnotAfter
    rcases hef with hef | hef <;> omega
  · simp only [Bool.and_eq_true, beq_iff_eq] at he hf
    simp [Edit.notAfter, he.1, he.2, hf.1, hf.2]

/-- Edits that reach into one another are refused. -/
theorem splice_of_not_beside (hfits : ∀ e ∈ es, e.Fits s) (h : ¬ es.Pairwise Edit.Beside) :
    ∃ k, splice s.text 0 (es.mergeSort Edit.notAfter) = .error (.overlap k) := by
  have hperm := List.mergeSort_perm es Edit.notAfter
  refine splice_of_not_row ⟨[], s.text, rfl, rfl⟩ (fun e he => hfits e (hperm.mem_iff.mp he))
    (List.pairwise_mergeSort Edit.notAfter_trans Edit.notAfter_total es) (fun e _ => Nat.zero_le _) fun hrow => h ?_
  exact (hperm.pairwise_iff fun h => Or.symm h).mp (hrow.imp .inl)

/-- Sorted edits have the places of all other orders of them. -/
private theorem places_mergeSort (h : es.Perm fs) :
    (es.mergeSort Edit.notAfter).map (fun e => (e.start, e.stop)) =
      (fs.mergeSort Edit.notAfter).map fun e => (e.start, e.stop) := by
  have hsorted (gs : List Edit) : ((gs.mergeSort Edit.notAfter).map fun e => (e.start, e.stop)).Pairwise
      fun p q => p.1 < q.1 ∨ p.1 = q.1 ∧ p.2 ≤ q.2 := by
    refine List.pairwise_map.mpr ((List.pairwise_mergeSort Edit.notAfter_trans Edit.notAfter_total gs).imp ?_)
    intro e f hef
    simpa [Edit.notAfter] using hef
  refine List.Perm.eq_of_pairwise (fun p q _ _ hpq hqp => ?_) (hsorted es) (hsorted fs) (List.Perm.map _ ?_)
  · exact Prod.ext (by omega) (by omega)
  · exact (List.mergeSort_perm es _).trans (h.trans (List.mergeSort_perm fs _).symm)

/-- It does not matter in which order edits are given, but for insertions at one place. -/
theorem splice_congr (hfits : ∀ e ∈ es, e.Fits s) (hperm : es.Perm fs)
    (hadded : ∀ k, (es.filter fun e => e.start == k && e.stop == k) =
      fs.filter fun e => e.start == k && e.stop == k) :
    splice s.text 0 (es.mergeSort Edit.notAfter) = splice s.text 0 (fs.mergeSort Edit.notAfter) := by
  have hfits' : ∀ e ∈ fs, e.Fits s := fun e he => hfits e (hperm.mem_iff.mpr he)
  by_cases h : es.Pairwise Edit.Beside
  · have h' : fs.Pairwise Edit.Beside := (hperm.pairwise_iff fun h => Or.symm h).mp h
    rw [splice_of_pairwise_beside hfits h, splice_of_pairwise_beside hfits' h',
      Rewriting.ofEdits_congr h hperm hadded]
  · obtain ⟨k, hk⟩ := splice_of_not_beside hfits h
    rw [hk, splice_error_congr (places_mergeSort hperm) hk]

end Sorting

end ModWeave
