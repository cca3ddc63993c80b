import ModWeave.Merge.Materialize
import ModWeave.Proofs.Token.Reads

/-! Splicing by regions. A text that is cut into regions, so that each edit stays inside one of them, is
spliced region by region. -/
namespace ModWeave

section Sorting

theorem Edit.notAfter_trans (a b c : Edit) (h : a.notAfter b) (k : b.notAfter c) : a.notAfter c := by
  simp only [Edit.notAfter, Bool.or_eq_true, decide_eq_true_eq, Bool.and_eq_true, beq_iff_eq] at *
  omega

theorem Edit.notAfter_total (a b : Edit) : a.notAfter b || b.notAfter a := by
  simp only [Edit.notAfter, Bool.or_eq_true, decide_eq_true_eq, Bool.and_eq_true, beq_iff_eq]
  omega

/-- Sorting puts the first edit in front of all that may not stand before it. -/
private theorem mergeSort_cons_eq (e : Edit) (es : List Edit) :
    (e :: es).mergeSort Edit.notAfter = (es.mergeSort Edit.notAfter).takeWhile (!e.notAfter ·) ++
      e :: (es.mergeSort Edit.notAfter).dropWhile (!e.notAfter ·) := by
  obtain ⟨front, back, hsort, hrest, hfront⟩ :=
    List.mergeSort_cons Edit.notAfter_trans Edit.notAfter_total e es
  have hsorted := List.pairwise_mergeSort Edit.notAfter_trans Edit.notAfter_total (e :: es)
  rw [hsort, List.pairwise_append, List.pairwise_cons] at hsorted
  have hback : back.takeWhile (!e.notAfter ·) = [] := by
    cases back with
    | nil => rfl
    | cons b back => simp [hsorted.2.1.1 b List.mem_cons_self]
  have hback' : back.dropWhile (!e.notAfter ·) = back := by
    cases back with
    | nil => rfl
    | cons b back => simp [hsorted.2.1.1 b List.mem_cons_self]
  rw [hsort, hrest, List.takeWhile_append_of_pos hfront, List.dropWhile_append_of_pos hfront, hback,
    hback', List.append_nil]

private theorem while_append_of_stop {α : Type} {q : α → Bool} {xs ys : List α}
    (h : ∀ y ∈ ys, q y = false) : (xs ++ ys).takeWhile q = xs.takeWhile q ∧
      (xs ++ ys).dropWhile q = xs.dropWhile q ++ ys := by
  induction xs with
  | nil =>
    cases ys with
    | nil => exact ⟨rfl, rfl⟩
    | cons y ys => simp [h y List.mem_cons_self]
  | cons x xs ih =>
    cases hx : q x with
    | true => simp [hx, ih.1, ih.2]
    | false => simp [hx]

/-- Edits of which the chosen ones stand strictly before the others are sorted apart. -/
theorem mergeSort_split {p : Edit → Bool} (es : List Edit)
    (h : ∀ e ∈ es, ∀ f ∈ es, p e = true → p f = false →
      e.notAfter f = true ∧ f.notAfter e = false) :
    es.mergeSort Edit.notAfter = (es.filter p).mergeSort Edit.notAfter ++
      (es.filter (!p ·)).mergeSort Edit.notAfter := by
  induction es with
  | nil => simp
  | cons e es ih =>
    have hes := ih fun e' he' f hf => h e' (List.mem_cons_of_mem _ he') f (List.mem_cons_of_mem _ hf)
    have hchosen {a : Edit} (ha : a ∈ (es.filter p).mergeSort Edit.notAfter) : a ∈ es ∧ p a = true := by
      rwa [List.mem_mergeSort, List.mem_filter] at ha
    have hother {a : Edit} (ha : a ∈ (es.filter (!p ·)).mergeSort Edit.notAfter) :
        a ∈ es ∧ p a = false := by
      rw [List.mem_mergeSort, List.mem_filter] at ha
      simpa using ha
    rw [mergeSort_cons_eq, hes]
    cases hp : p e with
    | true =>
      have hstop : ∀ b ∈ (es.filter (!p ·)).mergeSort Edit.notAfter, (!e.notAfter b) = false := by
        intro b hb
        obtain ⟨hmem, hb⟩ := hother hb
        simp [(h e List.mem_cons_self b (List.mem_cons_of_mem _ hmem) hp hb).1]
      obtain ⟨htake, hdrop⟩ := while_append_of_stop hstop
      rw [htake, hdrop, List.filter_cons_of_pos hp, List.filter_cons_of_neg (by simp [hp]),
        mergeSort_cons_eq]
      simp
    | false =>
      have hpass : ∀ a ∈ (es.filter p).mergeSort Edit.notAfter, (!e.notAfter a) = true := by
        intro a ha
        obtain ⟨hmem, ha⟩ := hchosen ha
        simp [(h a (List.mem_cons_of_mem _ hmem) e List.mem_cons_self ha hp).2]
      rw [List.takeWhile_append_of_pos hpass, List.dropWhile_append_of_pos hpass,
        List.filter_cons_of_neg (by simp [hp]), List.filter_cons_of_pos (by simp [hp]),
        mergeSort_cons_eq]
      simp

/-- Edits in order, none of which may stand after the others, stay behind these. -/
theorem mergeSort_append {es fs : List Edit} (h : ∀ e ∈ es, ∀ f ∈ fs, e.notAfter f = true)
    (hfs : fs.Pairwise (fun e f => e.notAfter f = true)) :
    (es ++ fs).mergeSort Edit.notAfter = es.mergeSort Edit.notAfter ++ fs := by
  induction es with
  | nil => simpa using List.mergeSort_of_pairwise hfs
  | cons e es ih =>
    rw [List.forall_mem_cons] at h
    have hstop : ∀ f ∈ fs, (!e.notAfter f) = false := fun f hf => by simp [h.1 f hf]
    obtain ⟨htake, hdrop⟩ := while_append_of_stop hstop
    rw [List.cons_append, mergeSort_cons_eq, ih h.2, htake, hdrop, mergeSort_cons_eq]
    simp

end Sorting

open Text

section Regions

variable {s : Source} {lo mid hi : Nat} {es fs : List Edit} {out out' : List Char}

/-- Edits inside a region of the text turn it into `out`, whatever is done behind it. -/
structure Turns (s : Source) (lo hi : Nat) (es : List Edit) (out : List Char) : Prop where
  inside : ∀ e ∈ es, lo ≤ e.start ∧ e.start ≤ e.stop ∧ e.stop ≤ hi
  splice (later : List Edit) (h : ∀ e ∈ later, hi ≤ e.start) :
    splice s.text lo (es.mergeSort Edit.notAfter ++ later) = (splice s.text hi later).map (out ++ ·)

private theorem takeBytes?_add (cs ds : List Char) (n : Nat) :
    takeBytes? (byteLength cs + n) (cs ++ ds) = (takeBytes? n ds).map (cs ++ ·) := by
  induction cs with
  | nil => simp
  | cons c cs ih =>
    have hpos := c.utf8Size_pos
    obtain ⟨k, hk⟩ : ∃ k, c.utf8Size + byteLength cs + n = k + 1 :=
      ⟨c.utf8Size + byteLength cs + n - 1, by omega⟩
    have hrest : k + 1 - c.utf8Size = byteLength cs + n := by omega
    rw [byteLength_cons, hk, List.cons_append, takeBytes?, if_pos (by omega), hrest, ih, Option.map_map]
    rfl

private theorem splice_keep {before after : List Char} {later : List Edit}
    (hs : s.text = before ++ (out ++ after)) (hlo : byteLength before = lo)
    (hhi : lo + byteLength out = hi) (hlater : ∀ e ∈ later, hi ≤ e.start) :
    ModWeave.splice s.text lo later = (ModWeave.splice s.text hi later).map (out ++ ·) := by
  have hdrop : dropBytes? lo s.text = some (out ++ after) := by rw [hs, ← hlo, dropBytes?_append]
  have hdrop' : dropBytes? hi s.text = some after := by
    rw [hs, ← List.append_assoc, ← hhi, ← hlo, ← byteLength_append, dropBytes?_append]
  cases later with
  | nil => simp [ModWeave.splice, hdrop, hdrop', Except.map]
  | cons e later =>
    have he := hlater e List.mem_cons_self
    have htake : takeBytes? (e.start - lo) (out ++ after) =
        (takeBytes? (e.start - hi) after).map (out ++ ·) := by
      rw [← takeBytes?_add]
      congr 1
      omega
    have hslice : slice? s.text lo e.start = (slice? s.text hi e.start).map (out ++ ·) := by
      rw [slice?, slice?, if_pos (by omega), if_pos he, hdrop, hdrop', Option.bind_some,
        Option.bind_some, htake]
    rw [ModWeave.splice, ModWeave.splice, if_neg (by omega), if_neg (by omega), hslice]
    cases slice? s.text hi e.start with
    | none => rfl
    | some kept =>
      cases ModWeave.splice s.text e.stop later <;> simp [Except.map]

/-- A region without edits stays. -/
theorem Turns.keep {before after : List Char} (hs : s.text = before ++ (out ++ after))
    (hlo : byteLength before = lo) (hhi : lo + byteLength out = hi) : Turns s lo hi [] out := by
  refine ⟨by simp, fun later hlater => ?_⟩
  rw [List.mergeSort_nil, List.nil_append]
  exact splice_keep hs hlo hhi hlater

/-- An edit replaces what stands up to the end of its region. -/
theorem Turns.replace {start : Nat} {kept replacement : List Char}
    (hkept : s.textBetween? lo start = some kept) (hlo : lo ≤ start) (hhi : start ≤ hi) :
    Turns s lo hi [⟨start, hi, replacement⟩] (kept ++ replacement) := by
  refine ⟨by simpa using ⟨hlo, hhi⟩, fun later hlater => ?_⟩
  rw [List.mergeSort_singleton, List.singleton_append, ModWeave.splice]
  rw [Source.textBetween?] at hkept
  simp only [Nat.not_lt.mpr hlo, if_false, hkept]

private theorem splice_insert (hb : s.Boundary hi) {later : List Edit}
    (hfs : ∀ f ∈ fs, f.start = hi ∧ f.stop = hi) :
    ModWeave.splice s.text hi (fs ++ later) =
      (ModWeave.splice s.text hi later).map (fs.flatMap Edit.replacement ++ ·) := by
  obtain ⟨before, after, hs, hlen⟩ := hb
  have hslice : slice? s.text hi hi = some [] := by
    have := slice?_append before [] after
    rw [List.append_nil, byteLength_nil, Nat.add_zero, ← hs, hlen] at this
    exact this
  induction fs with
  | nil =>
    rw [List.nil_append]
    cases ModWeave.splice s.text hi later <;> rfl
  | cons f fs ih =>
    rw [List.forall_mem_cons] at hfs
    rw [List.cons_append, ModWeave.splice, hfs.1.1, hfs.1.2, if_neg (Nat.lt_irrefl _), hslice, ih hfs.2]
    cases ModWeave.splice s.text hi later <;> simp [Except.map]

/-- What is inserted at the end of a region goes behind all else. -/
theorem Turns.insert (h : Turns s lo hi es out) (hb : s.Boundary hi) (hlo : lo ≤ hi)
    (hfs : ∀ f ∈ fs, f.start = hi ∧ f.stop = hi) :
    Turns s lo hi (es ++ fs) (out ++ fs.flatMap Edit.replacement) := by
  refine ⟨fun e he => ?_, fun later hlater => ?_⟩
  · rcases List.mem_append.mp he with he | he
    · exact h.inside e he
    · have := hfs e he
      omega
  · have hbefore : ∀ e ∈ es, ∀ f ∈ fs, e.notAfter f = true := by
      intro e he f hf
      have h1 := h.inside e he
      have h2 := hfs f hf
      simp only [Edit.notAfter, Bool.or_eq_true, decide_eq_true_eq, Bool.and_eq_true, beq_iff_eq]
      omega
    have hlevel : fs.Pairwise fun e f => e.notAfter f = true := by
      refine List.pairwise_of_forall_mem_list fun e he f hf => ?_
      have h1 := hfs e he
      have h2 := hfs f hf
      simp [Edit.notAfter, h1.1, h1.2, h2.1, h2.2]
    have hafter : ∀ e ∈ fs ++ later, hi ≤ e.start := by
      intro e he
      rcases List.mem_append.mp he with he | he
      · exact Nat.le_of_eq (hfs e he).1.symm
      · exact hlater e he
    rw [mergeSort_append hbefore hlevel, List.append_assoc, h.splice _ hafter, splice_insert hb hfs]
    cases ModWeave.splice s.text hi later <;> simp [Except.map]

/-- Regions next to each other are turned one by one. -/
theorem Turns.append (h : Turns s lo mid (es.filter (·.stop ≤ mid)) out)
    (k : Turns s mid hi (es.filter (!·.stop ≤ mid)) out') (hlo : lo ≤ mid) (hhi : mid ≤ hi) :
    Turns s lo hi es (out ++ out') := by
  have hleft {e : Edit} (he : e ∈ es) (hstop : e.stop ≤ mid) := h.inside e (by simp [he, hstop])
  have hright {e : Edit} (he : e ∈ es) (hstop : ¬ e.stop ≤ mid) :=
    k.inside e (List.mem_filter.mpr ⟨he, by simpa using hstop⟩)
  refine ⟨fun e he => ?_, fun later hlater => ?_⟩
  · by_cases hstop : e.stop ≤ mid
    · have := hleft he hstop
      omega
    · have := hright he hstop
      omega
  · rw [mergeSort_split (p := fun e => decide (e.stop ≤ mid)), List.append_assoc, h.splice, k.splice]
    · cases ModWeave.splice s.text hi later <;> simp [Except.map]
    · exact hlater
    · intro e he
      rcases List.mem_append.mp he with he | he
      · rw [List.mem_mergeSort] at he
        exact (k.inside e he).1
      · exact Nat.le_trans hhi (hlater e he)
    · intro e he f hf hp hq
      have h1 := hleft he (by simpa using hp)
      have h2 := hright hf (by simpa using hq)
      have h3 : mid < f.stop := by simpa using hq
      simp only [Edit.notAfter, Bool.or_eq_true, decide_eq_true_eq, Bool.and_eq_true, beq_iff_eq,
        Bool.or_eq_false_iff, decide_eq_false_iff_not, Bool.and_eq_false_iff]
      refine ⟨by omega, by omega, ?_⟩
      by_cases hstart : f.start = e.start
      · exact .inr (by omega)
      · exact .inl (by simpa using hstart)

end Regions

end ModWeave
