import ModWeave.Text.Lines

/-! Differences of two sequences of lines: the shortest edit found by searching from both ends, with
insertions then moved down and joined where that changes neither side. -/
namespace ModWeave.Text.LineDiff

abbrev Line := List Char

inductive Action where
  | keep
  | delete
  | insert
deriving DecidableEq, Repr

/-- A run of neighbouring lines that all are kept, deleted or inserted. -/
structure Run where
  action : Action
  lines : List Line
deriving DecidableEq, Repr

/-- Lines that two sequences start with alike. -/
def commonStart : List Line → List Line → List Line
  | a :: as, b :: bs => if a = b then a :: commonStart as bs else []
  | _, _ => []

/-- Lines that two sequences end with alike. -/
def commonEnd (as bs : List Line) : List Line := (commonStart as.reverse bs.reverse).reverse

theorem commonStart_length_left (as bs : List Line) : (commonStart as bs).length ≤ as.length := by
  fun_induction commonStart as bs <;> simp_all

theorem commonEnd_length_left (as bs : List Line) : (commonEnd as bs).length ≤ as.length := by
  simpa [commonEnd] using commonStart_length_left as.reverse bs.reverse

/-! ### The middle of a shortest edit

A path through the grid of old and new lines goes right for a deletion, down for an insertion, and
diagonally over equal lines. `Reach` holds, for each diagonal, how far right a path of the present
number of edits gets; diagonal `k` is stored at `k + offset`. -/

structure Reach where
  offset : Nat
  values : Array Nat

def Reach.new (edits : Nat) : Reach := ⟨edits + 1, Array.replicate (2 * edits + 3) 0⟩

def Reach.get (r : Reach) (k : Int) : Nat := r.values.getD (k + r.offset).toNat 0

def Reach.set (r : Reach) (k : Int) (x : Nat) : Reach :=
  { r with values := r.values.setIfInBounds (k + r.offset).toNat x }

/-- Diagonals that `d` edits may end on, from the top. -/
def diagonals (d : Nat) : List Int := (List.range (d + 1)).map fun (i : Nat) => (d : Int) - 2 * i

/-- Number of equal lines from positions `x` and `y` on, at most `limit`. -/
def equalRun (a b : Array Line) (x y : Nat) : Nat → Nat
  | 0 => 0
  | limit + 1 =>
    match a[x]?, b[y]? with
    | some l, some l' => if l = l' then equalRun a b (x + 1) (y + 1) limit + 1 else 0
    | _, _ => 0

/-- Where a path of `d` edits first reaches diagonal `k`: one edit further than the better of the two
neighbours. -/
def Reach.enter (r : Reach) (d : Nat) (k : Int) : Nat :=
  if k = -d || (k != d && r.get (k - 1) < r.get (k + 1)) then r.get (k + 1) else r.get (k - 1) + 1

/-- Extends the paths of one side by one edit, over diagonals `ks`. `met` says whether the path that
now reaches `x` on diagonal `k` overlaps one of the other side; the place where it entered its
diagonal, or left it, is then the answer. -/
def extend (a b : Array Line) (d : Nat) (met : Int → Nat → Bool) :
    List Int → Reach → Sum (Nat × Nat × Nat) Reach
  | [], r => .inr r
  | k :: ks, r =>
    let x := r.enter d k
    let y := (x - k).toNat
    let x' := x + equalRun a b x y a.size
    if met k x' then .inl (x, y, x' - x) else extend a b d met ks (r.set k x')

/-- Searches with `d`, `d + 1`, … edits from each side until the paths meet. -/
def meet (a b : Array Line) (d : Nat) (forward backward : Reach) : Nat → Option (Nat × Nat)
  | 0 => none
  | tries + 1 =>
    let n := a.size
    let delta : Int := n - b.size
    let odd := delta % 2 != 0
    let overlaps (other : Reach) (slack : Int) (k : Int) (x : Nat) : Bool :=
      decide ((k - delta).natAbs ≤ slack) && decide (n ≤ x + other.get (delta - k))
    match extend a b d (fun k x => odd && overlaps backward ((d : Int) - 1) k x)
        (diagonals d) forward with
    | .inl (x, y, _) => some (x, y)
    | .inr forward =>
      match extend a.reverse b.reverse d (fun k x => !odd && overlaps forward d k x)
          (diagonals d) backward with
      | .inl (x, y, run) => some (n - (x + run), b.size - (y + run))
      | .inr backward => meet a b (d + 1) forward backward tries

/-- A point in the middle of a shortest edit between two sequences. -/
def middle (a b : Array Line) : Option (Nat × Nat) :=
  let limit := (a.size + b.size + 1) / 2 + 1
  meet a b 0 (.new limit) (.new limit) limit

/-! ### The edit -/

/-- A run, unless it has no lines. -/
def run (action : Action) : List Line → List Run
  | [] => []
  | line :: rest => [⟨action, line :: rest⟩]

/-- What two sequences share at their ends is kept. The rest is parted in the middle, or is replaced
as a whole when one side is empty or the middle parts nothing. -/
def edit (old new : List Line) : List Run :=
  let start := commonStart old new
  let old₁ := old.drop start.length
  let new₁ := new.drop start.length
  let stop := commonEnd old₁ new₁
  let old₂ := old₁.take (old₁.length - stop.length)
  let new₂ := new₁.take (new₁.length - stop.length)
  let whole := run .delete old₂ ++ run .insert new₂
  let inner :=
    if old₂.isEmpty || new₂.isEmpty then whole
    else match middle old₂.toArray new₂.toArray with
      | none => whole
      | some (x, y) =>
        if _h : x ≤ old₂.length ∧ y ≤ new₂.length ∧ 0 < x + y ∧ x + y < old₂.length + new₂.length then
          edit (old₂.take x) (new₂.take y) ++ edit (old₂.drop x) (new₂.drop y)
        else whole
  run .keep start ++ inner ++ run .keep stop
termination_by old.length + new.length
decreasing_by
  all_goals
    have ho : old₂.length ≤ old.length :=
      ((List.take_sublist _ _).trans (List.drop_sublist _ _)).length_le
    have hn : new₂.length ≤ new.length :=
      ((List.take_sublist _ _).trans (List.drop_sublist _ _)).length_le
    generalize old₂.length = n at *
    generalize new₂.length = m at *
    simp only [List.length_take, List.length_drop]
    omega

/-! ### Moving edits together

A run on its way, with the runs above it, nearest first, and those below it. Lines kept on one side of
an insertion pass to its other side when the inserted lines repeat them. -/

/-- Puts lines in front of a kept run, or makes one of them. -/
def keepAbove (lines : List Line) : List Run → List Run
  | ⟨.keep, kept⟩ :: rest => ⟨.keep, lines ++ kept⟩ :: rest
  | rest => ⟨.keep, lines⟩ :: rest

/-- Puts lines at the end of a kept run, or makes one of them. The runs are given nearest first. -/
def keepBelow (lines : List Line) : List Run → List Run
  | ⟨.keep, kept⟩ :: rest => ⟨.keep, kept ++ lines⟩ :: rest
  | rest => ⟨.keep, lines⟩ :: rest

/-- Number of lines and runs, counted together. -/
def weight : List Run → Nat
  | [] => 0
  | r :: runs => r.lines.length + 1 + weight runs

@[simp] theorem weight_nil : weight [] = 0 := rfl

@[simp] theorem weight_cons (r : Run) (runs : List Run) :
    weight (r :: runs) = r.lines.length + 1 + weight runs := rfl

theorem weight_run_le (action : Action) (lines : List Line) (runs : List Run) :
    weight (run action lines ++ runs) ≤ lines.length + 1 + weight runs := by
  cases lines <;> simp [run]

/-- Kept lines that an insertion below them repeats at its end. -/
def repeatedAtEnd (kept : List Line) (this : Run) : List Line :=
  if this.action = .insert then commonEnd kept this.lines else []

/-- Kept lines that an insertion above them repeats at its start. -/
def repeatedAtStart (kept : List Line) (this : Run) : List Line :=
  if this.action = .insert then commonStart kept this.lines else []

theorem repeatedAtEnd_length (kept : List Line) (this : Run) :
    (repeatedAtEnd kept this).length ≤ kept.length := by
  unfold repeatedAtEnd
  split
  · exact commonEnd_length_left _ _
  · simp

theorem repeatedAtStart_length (kept : List Line) (this : Run) :
    (repeatedAtStart kept this).length ≤ kept.length := by
  unfold repeatedAtStart
  split
  · exact commonStart_length_left _ _
  · simp

/-- Moves a run up: past runs of the other action, into runs of its own, and, if it is an insertion,
over kept lines that it repeats at its end. -/
def moveUp (this : Run) (above below : List Run) : Run × List Run × List Run :=
  match above with
  | [] => (this, [], below)
  | ⟨.keep, kept⟩ :: rest =>
    if _h : repeatedAtEnd kept this = [] then
      if kept.isEmpty then moveUp this rest below else (this, ⟨.keep, kept⟩ :: rest, below)
    else
      let shared := repeatedAtEnd kept this
      let moved := shared ++ this.lines.take (this.lines.length - shared.length)
      moveUp { this with lines := moved }
        (run .keep (kept.take (kept.length - shared.length)) ++ rest) (keepAbove shared below)
  | ⟨action, lines⟩ :: rest =>
    if action = this.action then moveUp { this with lines := lines ++ this.lines } rest below
    else moveUp this rest (⟨action, lines⟩ :: below)
termination_by weight above
decreasing_by
  · simp
  · have hpos := List.length_pos_iff.mpr _h
    have hle := repeatedAtEnd_length kept this
    have hw := weight_run_le .keep (kept.take (kept.length - (repeatedAtEnd kept this).length)) rest
    simp only [List.length_take, weight_cons] at hw ⊢
    omega
  · simp
  · simp

/-- Moves a run down, likewise; an insertion passes kept lines that it repeats at its start. -/
def moveDown (this : Run) (above below : List Run) : Run × List Run × List Run :=
  match below with
  | [] => (this, above, [])
  | ⟨.keep, kept⟩ :: rest =>
    if _h : repeatedAtStart kept this = [] then
      if kept.isEmpty then moveDown this above rest else (this, above, ⟨.keep, kept⟩ :: rest)
    else
      let shared := repeatedAtStart kept this
      let moved := this.lines.drop shared.length ++ shared
      moveDown { this with lines := moved } (keepBelow shared above)
        (run .keep (kept.drop shared.length) ++ rest)
  | ⟨action, lines⟩ :: rest =>
    if action = this.action then moveDown { this with lines := this.lines ++ lines } above rest
    else moveDown this (⟨action, lines⟩ :: above) rest
termination_by weight below
decreasing_by
  · simp
  · have hpos := List.length_pos_iff.mpr _h
    have hle := repeatedAtStart_length kept this
    have hw := weight_run_le .keep (kept.drop (repeatedAtStart kept this).length) rest
    simp only [List.length_drop, weight_cons] at hw ⊢
    omega
  · simp
  · simp

/-- Moves every run of one action up and then down. A run that came to rest is passed; one that met
another of its action makes them one less, so that the passes end. `passes` bounds them, and what is
left when they are used up stays as it is. -/
def settle (action : Action) : Nat → List Run → List Run → List Run
  | 0, above, below => above.reverse ++ below
  | _ + 1, above, [] => above.reverse
  | passes + 1, above, r :: below =>
    if r.action = action then
      let (up, above, below) := moveUp r above below
      let (down, above, below) := moveDown up above below
      settle action passes (down :: above) below
    else settle action passes (r :: above) below

/-- Brings first the deletions and then the insertions of an edit together. -/
def compact (runs : List Run) : List Run :=
  let passes := (weight runs + 1) * (weight runs + 1)
  settle .insert passes [] (settle .delete passes [] runs)

/-- The lines of an edit. Between kept lines all deleted ones come before the inserted ones; `deleted`
and `inserted` are those since the last kept line. -/
def flatten (deleted inserted : List Line) : List Run → List (Action × Line)
  | [] => deleted.map (Action.delete, ·) ++ inserted.map (Action.insert, ·)
  | ⟨.keep, kept⟩ :: rest =>
    deleted.map (Action.delete, ·) ++ inserted.map (Action.insert, ·) ++
      kept.map (Action.keep, ·) ++ flatten [] [] rest
  | ⟨.delete, lines⟩ :: rest => flatten (deleted ++ lines) inserted rest
  | ⟨.insert, lines⟩ :: rest => flatten deleted (inserted ++ lines) rest

/-- What happens to each line on the way from one text to another, in order. -/
def changes (old new : List Char) : List (Action × Line) :=
  flatten [] [] (compact (edit (lines old) (lines new)))

/-- The mark in front of a line. -/
def Action.sign : Action → Char
  | .keep => ' '
  | .delete => '-'
  | .insert => '+'

/-- A line with a line end, added when it has none. -/
def closeLine (line : Line) : Line :=
  if line.getLast?.any isLineEnd then line else line ++ ['\n']

/-- All lines of two texts under their marks. -/
def unified (old new : List Char) : List Char :=
  (changes old new).flatMap fun (action, line) => action.sign :: closeLine line

end ModWeave.Text.LineDiff
