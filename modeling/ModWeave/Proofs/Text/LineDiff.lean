import Mathlib.Data.List.Basic
import ModWeave.Text.LineDiff

/-!
Lines of a text, and the difference of two sequences of lines. It holds both: without what is inserted it is
the old one, without what is deleted the new one. This is so of the edit that is found, and stays so when its
runs are moved.
-/
namespace ModWeave.Text
open LineDiff (Line closeLine)

/-- What ends a line. -/
inductive LineEnd : List Char → Prop
  | feed : LineEnd ['\n']
  | back : LineEnd ['\r']
  | both : LineEnd ['\r', '\n']

/-- A line without its end. -/
def Unbroken (cs : List Char) : Prop := ∀ c ∈ cs, isLineEnd c = false

/-- A line: nothing in it ends a line before its end, which the last line of a text may lack. -/
inductive IsLine : Line → Prop
  | ended {body ending : List Char} (unbroken : Unbroken body) (ends : LineEnd ending) :
      IsLine (body ++ ending)
  | last {body : List Char} (unbroken : Unbroken body) (filled : body ≠ []) : IsLine body

/-- A text whose last line has an end: a line feed, if it had none. -/
def closed (cs : List Char) : List Char :=
  if cs = [] ∨ cs.getLast?.any isLineEnd = true then cs else cs ++ ['\n']

variable {begun body ending cs rest : List Char} {line : Line}

theorem LineEnd.closes (h : LineEnd ending) (body : List Char) :
    (body ++ ending).getLast?.any isLineEnd = true := by
  cases h <;> simp [isLineEnd]

theorem linesFrom_cons {c : Char} (hc : isLineEnd c = false) (begun rest : List Char) :
    linesFrom begun (c :: rest) = linesFrom (c :: begun) rest := by
  rw [linesFrom, hc, if_neg Bool.false_ne_true]
  rintro r rfl
  exact absurd hc (by decide)

theorem linesFrom_unbroken (h : Unbroken body) (begun rest : List Char) :
    linesFrom begun (body ++ rest) = linesFrom (body.reverse ++ begun) rest := by
  induction body generalizing begun with
  | nil => rfl
  | cons c body ih =>
    rw [Unbroken, List.forall_mem_cons] at h
    rw [List.cons_append, linesFrom_cons h.1, ih h.2, List.reverse_cons, List.append_assoc]
    rfl

/-- A line that has an end is the first of a text that begins with it, unless its end goes on. -/
theorem lines_append (hbody : Unbroken body) (hending : LineEnd ending) (hrest : rest.head? ≠ some '\n') :
    lines (body ++ ending ++ rest) = (body ++ ending) :: lines rest := by
  rw [lines, List.append_assoc, linesFrom_unbroken hbody, List.append_nil]
  cases hending with
  | feed => simp [linesFrom, isLineEnd, lines]
  | both => simp [linesFrom, lines]
  | back =>
    rw [List.singleton_append, linesFrom, List.reverse_reverse]
    · simp [isLineEnd, lines]
    · rintro r - rfl
      exact hrest rfl

theorem lineEnd_of_isLineEnd {c : Char} (h : isLineEnd c = true) : LineEnd [c] := by
  simp only [isLineEnd, Bool.or_eq_true, beq_iff_eq] at h
  obtain rfl | rfl := h
  · exact .feed
  · exact .back

theorem unbroken_nil : Unbroken [] := fun _ hc => absurd hc List.not_mem_nil

theorem isLine_of_mem_linesFrom (hbegun : Unbroken begun) (h : line ∈ linesFrom begun cs) : IsLine line := by
  have hreverse {body : List Char} (hbody : Unbroken body) : Unbroken body.reverse :=
    fun c hc => hbody c (List.mem_reverse.mp hc)
  fun_induction linesFrom begun cs with
  | case1 begun => cases h
  | case2 begun hne =>
    obtain rfl := List.mem_singleton.mp h
    exact .last (hreverse hbegun) (by simpa using hne)
  | case3 begun rest ih =>
    obtain rfl | h := List.mem_cons.mp h
    · exact .ended (hreverse hbegun) .both
    · exact ih unbroken_nil h
  | case4 begun c rest _ hc ih =>
    obtain rfl | h := List.mem_cons.mp h
    · exact .ended (hreverse hbegun) (lineEnd_of_isLineEnd hc)
    · exact ih unbroken_nil h
  | case5 begun c rest _ hc ih =>
    exact ih (List.forall_mem_cons.mpr ⟨Bool.eq_false_iff.mpr hc, hbegun⟩) h

theorem isLine_of_mem (h : line ∈ lines cs) : IsLine line := isLine_of_mem_linesFrom unbroken_nil h

/-- A line is closed as a body with an end. -/
theorem IsLine.exists_closed (h : IsLine line) :
    ∃ body ending, closeLine line = body ++ ending ∧ Unbroken body ∧ LineEnd ending := by
  cases h with
  | ended unbroken ends => exact ⟨_, _, if_pos (ends.closes _), unbroken, ends⟩
  | last unbroken filled =>
    refine ⟨line, ['\n'], if_neg ?_, unbroken, .feed⟩
    rw [List.getLast?_eq_some_getLast filled, Option.any_some, unbroken _ (List.getLast_mem filled)]
    exact Bool.false_ne_true

theorem closed_of_ne_nil (h : cs ≠ []) : closed cs = closeLine cs := by
  simp only [closed, closeLine, h, false_or]

/-- Only what stands at the end of a text matters for its end. -/
theorem closed_append (hcs : cs ≠ []) (before : List Char) : closed (before ++ cs) = before ++ closed cs := by
  obtain ⟨front, c, rfl⟩ := (List.eq_nil_or_concat' cs).resolve_left hcs
  rw [closed_of_ne_nil (by simp), closed_of_ne_nil hcs, closeLine, closeLine, ← List.append_assoc,
    List.getLast?_concat, List.getLast?_concat]
  split <;> simp

theorem closed_ended (h : LineEnd ending) (body rest : List Char) :
    closeLine (body ++ ending) ++ closed rest = closed (body ++ ending ++ rest) := by
  have hends : closeLine (body ++ ending) = body ++ ending := if_pos (h.closes body)
  by_cases hrest : rest = []
  · rw [hrest, List.append_nil, ← closed_of_ne_nil (by cases h <;> simp)]
    exact List.append_nil _
  · rw [hends, closed_append hrest]

/-- Closing each line closes the last one, the only one that may be open. -/
theorem flatMap_closeLine_linesFrom (begun cs : List Char) :
    (linesFrom begun cs).flatMap closeLine = closed (begun.reverse ++ cs) := by
  fun_induction linesFrom begun cs with
  | case1 begun hnil =>
    rw [List.isEmpty_iff.mp hnil]
    rfl
  | case2 begun hne => rw [List.flatMap_singleton, List.append_nil, closed_of_ne_nil (by simpa using hne)]
  | case3 begun rest ih =>
    rw [List.flatMap_cons, ih, List.reverse_nil, List.nil_append, closed_ended .both, List.append_assoc]
    rfl
  | case4 begun c rest _ hc ih =>
    rw [List.flatMap_cons, ih, List.reverse_nil, List.nil_append, closed_ended (lineEnd_of_isLineEnd hc),
      List.append_assoc]
    rfl
  | case5 begun c rest _ hc ih => rw [ih, List.reverse_cons, List.append_assoc, List.singleton_append]

theorem flatMap_closeLine_lines (cs : List Char) : (lines cs).flatMap closeLine = closed cs :=
  flatMap_closeLine_linesFrom [] cs

end ModWeave.Text

namespace ModWeave.Text.LineDiff

/-- The lines of runs but for those under one action: without insertions the old side, without deletions the
new one. -/
def without (action : Action) (runs : List Run) : List Line :=
  (runs.filter (·.action ≠ action)).flatMap Run.lines

/-- Whether runs lead from one sequence to another. -/
structure Leads (runs : List Run) (old new : List Line) : Prop where
  old : without .insert runs = old
  new : without .delete runs = new

section Without

variable {action other : Action} {lines : List Line} {runs runs' : List Run}

@[simp] theorem without_nil (action : Action) : without action [] = [] := rfl

theorem without_cons (action : Action) (r : Run) (runs : List Run) : without action (r :: runs) =
    (if r.action = action then [] else r.lines) ++ without action runs := by
  by_cases h : r.action = action <;> simp [without, h]

@[simp] theorem without_append (action : Action) (runs runs' : List Run) :
    without action (runs ++ runs') = without action runs ++ without action runs' := by
  simp [without]

@[simp] theorem without_run (action other : Action) (lines : List Line) :
    without action (run other lines) = if other = action then [] else lines := by
  cases lines <;> simp [run, without_cons]

end Without

theorem Leads.append {runs runs' : List Run} {old old' new new' : List Line} (h : Leads runs old new)
    (h' : Leads runs' old' new') : Leads (runs ++ runs') (old ++ old') (new ++ new') :=
  ⟨by rw [without_append, h.old, h'.old], by rw [without_append, h.new, h'.new]⟩

theorem leads_keep (lines : List Line) : Leads (run .keep lines) lines lines :=
  ⟨without_run .insert .keep lines, without_run .delete .keep lines⟩

/-- All of one side is replaced by all of the other. -/
theorem leads_whole (old new : List Line) : Leads (run .delete old ++ run .insert new) old new :=
  ⟨by simp, by simp⟩

theorem commonStart_isPrefix (as bs : List Line) : commonStart as bs <+: as ∧ commonStart as bs <+: bs := by
  fun_induction commonStart as bs with
  | case1 as b bs ih => exact ⟨(List.prefix_cons_inj b).mpr ih.1, (List.prefix_cons_inj b).mpr ih.2⟩
  | case2 => exact ⟨List.nil_prefix, List.nil_prefix⟩
  | case3 => exact ⟨List.nil_prefix, List.nil_prefix⟩

theorem commonEnd_isSuffix (as bs : List Line) : commonEnd as bs <:+ as ∧ commonEnd as bs <:+ bs := by
  obtain ⟨has, hbs⟩ := commonStart_isPrefix as.reverse bs.reverse
  rw [commonEnd]
  exact ⟨List.reverse_prefix.mp (by simpa using has), List.reverse_prefix.mp (by simpa using hbs)⟩

theorem start_middle_stop {lines start stop : List Line} (hstart : start <+: lines)
    (hstop : stop <:+ lines.drop start.length) :
    start ++ (lines.drop start.length).take ((lines.drop start.length).length - stop.length) ++ stop =
      lines := by
  obtain ⟨behind, rfl⟩ := hstart
  rw [List.drop_left] at hstop ⊢
  obtain ⟨middle, rfl⟩ := hstop
  rw [List.length_append, Nat.add_sub_cancel, List.take_left, List.append_assoc]

/-- The edit that is found leads from the old sequence to the new one. -/
theorem edit_leads (old new : List Line) : Leads (edit old new) old new := by
  fun_induction edit old new with
  | case1 old new start old₁ new₁ stop old₂ new₂ whole inner above below =>
    have hinner : Leads inner old₂ new₂ := by
      have hwhole : Leads whole old₂ new₂ := leads_whole old₂ new₂
      simp only [inner]
      split
      · exact hwhole
      split
      · exact hwhole
      rename_i x y _
      split
      · rename_i hparts
        have hparted := (above x y hparts).append (below x y hparts)
        rwa [List.take_append_drop, List.take_append_drop] at hparted
      · exact hwhole
    obtain ⟨hstart, hstart'⟩ := commonStart_isPrefix old new
    obtain ⟨hstop, hstop'⟩ := commonEnd_isSuffix old₁ new₁
    have hall := ((leads_keep start).append hinner).append (leads_keep stop)
    rwa [start_middle_stop hstart hstop, start_middle_stop hstart' hstop'] at hall

/-! ### Moving runs -/

/-- Whether two lists of runs have the same two sides. -/
def SameSides (runs runs' : List Run) : Prop :=
  ∀ action, action ≠ .keep → without action runs = without action runs'

/-- A run on its way between the runs above it and those below it. -/
def rejoined (p : Run × List Run × List Run) : List Run := p.2.1.reverse ++ p.1 :: p.2.2

section Moves

variable {this : Run} {above below runs runs' : List Run} {action : Action}

theorem SameSides.trans {runs'' : List Run} (h : SameSides runs runs') (h' : SameSides runs' runs'') :
    SameSides runs runs'' := fun action ha => (h action ha).trans (h' action ha)

theorem SameSides.leads {old new : List Line} (h : SameSides runs runs') (hleads : Leads runs' old new) :
    Leads runs old new :=
  ⟨(h .insert (by decide)).trans hleads.old, (h .delete (by decide)).trans hleads.new⟩

theorem without_rejoined (action : Action) (this : Run) (above below : List Run) :
    without action (rejoined (this, above, below)) = without action above.reverse ++
      ((if this.action = action then [] else this.lines) ++ without action below) := by
  rw [rejoined, without_append, without_cons]

/-- Of a deletion and an insertion one is left out on either side. -/
theorem eq_or_eq_of_ne_keep {a b c : Action} (ha : a ≠ .keep) (hb : b ≠ .keep) (hc : c ≠ .keep)
    (hbc : b ≠ c) : b = a ∨ c = a := by
  cases a <;> cases b <;> cases c <;> simp_all

theorem without_keepAbove (action : Action) (lines : List Line) (runs : List Run) :
    without action (keepAbove lines runs) = without action (⟨.keep, lines⟩ :: runs) := by
  unfold keepAbove
  split
  · cases action <;> simp [without_cons]
  · rfl

theorem without_keepBelow (action : Action) (lines : List Line) (runs : List Run) :
    without action (keepBelow lines runs).reverse = without action (runs.reverse ++ [⟨.keep, lines⟩]) := by
  unfold keepBelow
  split
  · cases action <;> simp [without_cons]
  · rw [List.reverse_cons]

@[simp] theorem reverse_run (action : Action) (lines : List Line) :
    (run action lines).reverse = run action lines := by
  cases lines <;> rfl

/-- Kept lines that an insertion below them repeats at its end may as well be kept below it. -/
theorem sameSides_slideUp {kept lines shared : List Line} (hkept : shared <:+ kept)
    (hlines : shared <:+ lines) (rest below : List Run) :
    SameSides (rejoined (⟨.insert, shared ++ lines.take (lines.length - shared.length)⟩,
        run .keep (kept.take (kept.length - shared.length)) ++ rest, keepAbove shared below))
      (rejoined (⟨.insert, lines⟩, ⟨.keep, kept⟩ :: rest, below)) := by
  obtain ⟨front, rfl⟩ := hkept
  obtain ⟨lead, rfl⟩ := hlines
  intro action ha
  simp only [without_rejoined, without_keepAbove, List.length_append, Nat.add_sub_cancel, List.take_left]
  cases action <;> simp_all [without_cons]

/-- Kept lines that an insertion above them repeats at its start may as well be kept above it. -/
theorem sameSides_slideDown {kept lines shared : List Line} (hkept : shared <+: kept)
    (hlines : shared <+: lines) (above rest : List Run) :
    SameSides (rejoined (⟨.insert, lines.drop shared.length ++ shared⟩, keepBelow shared above,
        run .keep (kept.drop shared.length) ++ rest))
      (rejoined (⟨.insert, lines⟩, above, ⟨.keep, kept⟩ :: rest)) := by
  obtain ⟨behind, rfl⟩ := hkept
  obtain ⟨trail, rfl⟩ := hlines
  intro action ha
  simp only [without_rejoined, without_keepBelow, List.drop_left]
  cases action <;> simp_all [without_cons]

/-- Moved up past others, joined with its like and slid over what it repeats, a run leaves both sides alone. -/
theorem sameSides_moveUp (this : Run) (above below : List Run) (hthis : this.action ≠ .keep) :
    (moveUp this above below).1.action = this.action ∧
      SameSides (rejoined (moveUp this above below)) (rejoined (this, above, below)) := by
  fun_induction moveUp this above below with
  | case1 => exact ⟨rfl, fun _ _ => rfl⟩
  | case2 this below kept rest _ hempty ih =>
    refine ⟨(ih hthis).1, (ih hthis).2.trans fun action _ => ?_⟩
    rw [List.isEmpty_iff.mp hempty]
    simp [without_rejoined, without_cons]
  | case3 => exact ⟨rfl, fun _ _ => rfl⟩
  | case4 this below kept rest hshared shared moved ih =>
    refine ⟨(ih hthis).1, (ih hthis).2.trans ?_⟩
    have hinsert : this.action = .insert := Decidable.byContradiction fun hne => hshared (if_neg hne)
    have heq : shared = commonEnd kept this.lines := if_pos hinsert
    obtain ⟨hkept, hlines⟩ := commonEnd_isSuffix kept this.lines
    have hslide := sameSides_slideUp hkept hlines rest below
    rw [← heq, ← hinsert] at hslide
    exact hslide
  | case5 this below lines rest _ ih =>
    refine ⟨(ih hthis).1, (ih hthis).2.trans fun action _ => ?_⟩
    simp only [without_rejoined, List.reverse_cons, without_append, without_cons, without_nil]
    split <;> simp
  | case6 this below other lines rest hother hne ih =>
    refine ⟨(ih hthis).1, (ih hthis).2.trans fun action ha => ?_⟩
    simp only [without_rejoined, List.reverse_cons, without_append, without_cons, without_nil]
    obtain rfl | rfl := eq_or_eq_of_ne_keep ha hother hthis hne
    · simp
    · simp

/-- So does a run that is moved down. -/
theorem sameSides_moveDown (this : Run) (above below : List Run) (hthis : this.action ≠ .keep) :
    (moveDown this above below).1.action = this.action ∧
      SameSides (rejoined (moveDown this above below)) (rejoined (this, above, below)) := by
  fun_induction moveDown this above below with
  | case1 => exact ⟨rfl, fun _ _ => rfl⟩
  | case2 this above kept rest _ hempty ih =>
    refine ⟨(ih hthis).1, (ih hthis).2.trans fun action _ => ?_⟩
    rw [List.isEmpty_iff.mp hempty]
    simp [without_rejoined, without_cons]
  | case3 => exact ⟨rfl, fun _ _ => rfl⟩
  | case4 this above kept rest hshared shared moved ih =>
    refine ⟨(ih hthis).1, (ih hthis).2.trans ?_⟩
    have hinsert : this.action = .insert := Decidable.byContradiction fun hne => hshared (if_neg hne)
    have heq : shared = commonStart kept this.lines := if_pos hinsert
    obtain ⟨hkept, hlines⟩ := commonStart_isPrefix kept this.lines
    have hslide := sameSides_slideDown hkept hlines above rest
    rw [← heq, ← hinsert] at hslide
    exact hslide
  | case5 this above lines rest _ ih =>
    refine ⟨(ih hthis).1, (ih hthis).2.trans fun action _ => ?_⟩
    simp only [without_rejoined, without_cons]
    split <;> simp
  | case6 this above other lines rest hother hne ih =>
    refine ⟨(ih hthis).1, (ih hthis).2.trans fun action ha => ?_⟩
    simp only [without_rejoined, List.reverse_cons, without_append, without_cons, without_nil]
    obtain rfl | rfl := eq_or_eq_of_ne_keep ha hother hthis hne
    · simp
    · simp

/-- Moving all runs of one action together leaves both sides alone. -/
theorem sameSides_settle (haction : action ≠ .keep) (passes : Nat) (above below : List Run) :
    SameSides (settle action passes above below) (above.reverse ++ below) := by
  induction passes generalizing above below with
  | zero => exact fun _ _ => rfl
  | succ passes ih =>
    cases below with
    | nil =>
      intro other _
      rw [settle, List.append_nil]
    | cons r below =>
      rw [settle]
      split
      · rename_i hr
        obtain ⟨hup, hsides⟩ := sameSides_moveUp r above below (hr ▸ haction)
        have hdown := (sameSides_moveDown (moveUp r above below).1 (moveUp r above below).2.1
          (moveUp r above below).2.2 (by rwa [hup, hr])).2
        refine (ih _ _).trans ((SameSides.trans ?_ hdown).trans hsides)
        intro other _
        simp [rejoined]
      · refine (ih _ _).trans fun other _ => ?_
        simp

theorem sameSides_compact (runs : List Run) : SameSides (compact runs) runs :=
  (sameSides_settle (by decide) _ _ _).trans (sameSides_settle (by decide) _ _ _)

end Moves

/-! ### Changes of lines -/

/-- The lines of changes but for those under one action. -/
def linesWithout (action : Action) (cs : List (Action × Line)) : List Line :=
  (cs.filter (·.1 ≠ action)).map Prod.snd

section Changes

variable {action : Action} {cs : List (Action × Line)} {old new : List Char}

@[simp] theorem linesWithout_append (action : Action) (cs cs' : List (Action × Line)) :
    linesWithout action (cs ++ cs') = linesWithout action cs ++ linesWithout action cs' := by
  simp [linesWithout]

@[simp] theorem linesWithout_map (action other : Action) (lines : List Line) :
    linesWithout action (lines.map (other, ·)) = if other = action then [] else lines := by
  by_cases h : other = action <;> simp [linesWithout, List.filter_map, Function.comp_def, h]

/-- The lines of an edit are those of its runs. -/
theorem linesWithout_flatten (haction : action ≠ .keep) (deleted inserted : List Line) (runs : List Run) :
    linesWithout action (flatten deleted inserted runs) =
      without action (⟨.delete, deleted⟩ :: ⟨.insert, inserted⟩ :: runs) := by
  fun_induction flatten deleted inserted runs with
  | case1 => simp [without_cons]
  | case2 deleted inserted kept rest ih => simp [without_cons, ih, Ne.symm haction]
  | case3 deleted inserted lines rest ih => cases action <;> simp_all [without_cons]
  | case4 deleted inserted lines rest ih => cases action <;> simp_all [without_cons]

/-- All changes hold the lines of both texts, in order. -/
theorem linesWithout_changes (old new : List Char) : linesWithout .insert (changes old new) = lines old ∧
    linesWithout .delete (changes old new) = lines new := by
  have hleads := (sameSides_compact _).leads (edit_leads (lines old) (lines new))
  rw [changes, linesWithout_flatten (by decide), linesWithout_flatten (by decide)]
  exact ⟨by simpa [without_cons] using hleads.old, by simpa [without_cons] using hleads.new⟩

theorem isLine_of_mem_changes {change : Action × Line} (h : change ∈ changes old new) :
    IsLine change.2 := by
  obtain ⟨hold, hnew⟩ := linesWithout_changes old new
  have hmem (action : Action) (hne : change.1 ≠ action) :
      change.2 ∈ linesWithout action (changes old new) :=
    List.mem_map_of_mem (List.mem_filter.mpr ⟨h, by simpa using hne⟩)
  by_cases hne : change.1 = .insert
  · exact isLine_of_mem (hnew ▸ hmem .delete (by rw [hne]; decide))
  · exact isLine_of_mem (hold ▸ hmem .insert hne)

end Changes

end ModWeave.Text.LineDiff
