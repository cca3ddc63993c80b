import ModWeave.Merge.Diff

/-! The merged text: the base text with every change that was chosen spliced in. -/
namespace ModWeave

/-- Bytes to cut from a text, and what to put there. -/
structure Edit where
  start : Nat
  stop : Nat
  replacement : List Char
deriving DecidableEq, Repr

/-- Why no merged text can be made. -/
inductive MergeError where
  | unresolved (file signature : String)
  | overlap (offset : Nat)
  /-- An edit outside the text or inside a character. -/
  | outOfRange
deriving DecidableEq, Repr

def MergeError.message : MergeError → String
  | unresolved file signature => s!"conflict at {signature} in {file} has no resolution"
  | overlap offset => s!"overlapping edits at byte {offset}"
  | outOfRange => "edit out of range"

/-- The edit of a conflict: none when the base wins. -/
def Conflict.edit (c : Conflict) : Except MergeError (Option Edit) :=
  match c.resolution with
  | none => .error (.unresolved c.names.file c.signature)
  | some choice =>
    if choice.takesMod then
      let (start, stop) := c.base.node.span c.base.source
      match c.mod with
      | none => .ok (some ⟨start, stop, []⟩)
      | some m =>
        match m.text? with
        | some text => .ok (some ⟨start, stop, text⟩)
        | none => .error .outOfRange
    else .ok none

/-- The edit of an addition. -/
def Addition.edit (a : Addition) : Edit := ⟨a.offset, a.offset, a.text⟩

/-- Edits of all conflicts, then of all additions. Every conflict has to be settled. -/
def Changes.edits (c : Changes) : Except MergeError (List Edit) := do
  let chosen ← c.conflicts.mapM Conflict.edit
  return chosen.filterMap id ++ c.additions.map Addition.edit

/-- Whether an edit may stand before another: by start, then by end. -/
def Edit.notAfter (e f : Edit) : Bool := e.start < f.start || (e.start == f.start && e.stop ≤ f.stop)

/-- Carries out edits in order on a text, of which everything before byte `cursor` is done. -/
def splice (text : List Char) (cursor : Nat) : List Edit → Except MergeError (List Char)
  | [] =>
    match Text.dropBytes? cursor text with
    | some rest => .ok rest
    | none => .error .outOfRange
  | e :: rest =>
    if e.start < cursor then .error (.overlap e.start)
    else match Text.slice? text cursor e.start with
      | none => .error .outOfRange
      | some kept => (splice text e.stop rest).map (kept ++ e.replacement ++ ·)

/-- The base text with the changes in it. What no change touches is kept as it is, blanks and comments
too. Edits at one place keep their order. -/
def materialize (base : Tree) (changes : Changes) : Except MergeError (List Char) := do
  splice base.text 0 ((← changes.edits).mergeSort Edit.notAfter)

end ModWeave
