import ModWeave.Merge.Conflict
import ModWeave.Proofs.Text.LineDiff

/-!
What the operator sees of a conflict. Each line is shown behind a mark, and either side can be read off
again: the marks tell its lines, and nothing of them is lost but an end that the last one may lack.
-/
namespace ModWeave
open Text

namespace Text.LineDiff

/-- A line behind its mark. -/
def marked (change : Action × Line) : Line := change.1.sign :: closeLine change.2

/-- The lines of a text that stand behind a mark or behind that of kept lines, without the marks. -/
def shown (mark : Char) (text : List Char) : List Char :=
  ((lines text).filter fun line => line.head? = some mark ∨ line.head? = some Action.keep.sign).flatMap
    (List.drop 1)

variable {mark : Char} {cs : List (Action × Line)}

theorem isLineEnd_sign (action : Action) : isLineEnd action.sign = false := by cases action <;> decide

theorem head?_flatMap_marked (cs : List (Action × Line)) : (cs.flatMap marked).head? ≠ some '\n' := by
  cases cs with
  | nil => exact Option.some_ne_none _ |>.symm
  | cons change cs =>
    rw [List.flatMap_cons, marked, List.cons_append, List.head?_cons, ne_eq, Option.some.injEq]
    intro heq
    exact absurd (isLineEnd_sign change.1) (by rw [heq]; decide)

/-- Lines behind marks, put together, come apart again. -/
theorem lines_flatMap_marked (h : ∀ change ∈ cs, IsLine change.2) :
    lines (cs.flatMap marked) = cs.map marked := by
  induction cs with
  | nil => rfl
  | cons change cs ih =>
    rw [List.forall_mem_cons] at h
    obtain ⟨body, ending, hclosed, hbody, hending⟩ := h.1.exists_closed
    have hmarked : marked change = (change.1.sign :: body) ++ ending := congrArg (change.1.sign :: ·) hclosed
    have hunbroken : Unbroken (change.1.sign :: body) :=
      List.forall_mem_cons.mpr ⟨isLineEnd_sign change.1, hbody⟩
    rw [List.flatMap_cons, List.map_cons, hmarked,
      lines_append hunbroken hending (head?_flatMap_marked cs), ih h.2]

/-- A mark that stands for all actions but one, that of kept lines aside, tells the lines without that one. -/
theorem shown_flatMap_marked (action : Action) (h : ∀ change ∈ cs, IsLine change.2)
    (hmark : ∀ a : Action, (a.sign = mark ∨ a.sign = Action.keep.sign) ↔ a ≠ action) :
    shown mark (cs.flatMap marked) = (linesWithout action cs).flatMap closeLine := by
  have hkept (change : Action × Line) : decide ((marked change).head? = some mark ∨
      (marked change).head? = some Action.keep.sign) = decide (change.1 ≠ action) := by
    simp only [marked, List.head?_cons, Option.some.injEq, hmark]
  rw [shown, lines_flatMap_marked h, List.filter_map, List.flatMap_map, linesWithout, List.flatMap_map]
  simp only [Function.comp_def, hkept]
  rfl

theorem unified_eq (old new : List Char) : unified old new = (changes old new).flatMap marked := rfl

theorem shown_unified (old new : List Char) :
    shown '-' (unified old new) = closed old ∧ shown '+' (unified old new) = closed new := by
  obtain ⟨hold, hnew⟩ := linesWithout_changes old new
  have hlines : ∀ change ∈ changes old new, IsLine change.2 := fun _ => isLine_of_mem_changes
  rw [unified_eq, shown_flatMap_marked .insert hlines (by intro a; cases a <;> decide),
    shown_flatMap_marked .delete hlines (by intro a; cases a <;> decide), hold, hnew,
    flatMap_closeLine_lines, flatMap_closeLine_lines]
  exact ⟨rfl, rfl⟩

end Text.LineDiff

/-- Each line of a diff is marked as deleted, inserted or kept. The deleted and the kept ones are the text of
the base, the inserted and the kept ones that of the mod, which is nothing where the mod drops the construct. -/
theorem Conflict.unifiedDiff_shows_both_sides (c : Conflict) :
    (∀ line ∈ lines c.unifiedDiff, ∃ mark rest, line = mark :: rest ∧ mark ∈ ['-', '+', ' ']) ∧
      LineDiff.shown '-' c.unifiedDiff = closed c.base.text ∧
      LineDiff.shown '+' c.unifiedDiff =
        match c.mod with
        | some mod => closed mod.text
        | none => [] := by
  obtain ⟨hbase, hmod⟩ := LineDiff.shown_unified c.base.text c.modText
  refine ⟨fun line hline => ?_, hbase, hmod.trans ?_⟩
  · rw [unifiedDiff, LineDiff.unified_eq, LineDiff.lines_flatMap_marked fun _ => LineDiff.isLine_of_mem_changes]
      at hline
    obtain ⟨change, -, rfl⟩ := List.mem_map.mp hline
    exact ⟨_, _, rfl, by cases change.1 <;> decide⟩
  · rw [modText]
    cases c.mod <;> rfl

end ModWeave
