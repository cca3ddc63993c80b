import ModWeave.Merge.Session
import ModWeave.Run.Base
import ModWeave.Run.Dialogue

/-!
Settling conflicts. A change that only one side made can settle itself; what is left goes by the run's
default, else to the operator.
-/
namespace ModWeave

/-- What a run has so far. -/
structure Progress where
  base : BaseArchive
  disk : Disk
  session : Session
  report : Report

/-- Work on one file: it may fail, and what it did until then stays. -/
abbrev FileWork := ExceptT FileFailure (StateT Progress Dialogue)

namespace FileWork

/-- Tells the operator something. -/
def tell (n : Notice) : FileWork Unit := ExceptT.lift (StateT.lift (.tell n (.done ())))

/-- Asks the operator about a conflict. -/
def ask (c : Conflict) : FileWork Answer := ExceptT.lift (StateT.lift (.ask c .done))

/-- Goes on with what the disk gave, if it did not refuse. -/
def orIo {α : Type} (a : Option α) : FileWork α :=
  match a with
  | some a => pure a
  | none => throw .io

/-- Changes the disk, if it does not refuse. -/
def change (f : Disk → Option Disk) : FileWork Unit := do
  let disk ← orIo (f (← get).disk)
  modify fun s => { s with disk }

end FileWork

namespace Conflict

/-- The choice that a change made on one side only brings with it. -/
def triageChoice? (c : Conflict) (settings : MergeSettings) (vanilla : Option Tree) : Option Choice :=
  if settings.autoMergeNovel then
    match c.triage vanilla with
    | .novel => some .takeMod
    | .redundant => some .keepBase
    | .conflicting => none
  else none

/-- Settles a conflict as the operator chooses. A choice for all conflicts is kept. -/
def putToOperator (c : Conflict) : FileWork Conflict := do
  match ← FileWork.ask c with
  | .choose choice =>
    let (session, c) := (← get).session.apply c choice
    modify fun s => { s with session }
    return c
  | .refuse reason => throw (.refused reason)
  | .abort => throw .aborted

/-- Settles a conflict, and says whether that went without asking. -/
def settle (c : Conflict) (settings : MergeSettings) (vanilla : Option Tree) :
    FileWork (Conflict × Bool) := do
  match c.triageChoice? settings vanilla with
  | some choice => return (c.resolve choice, true)
  | none =>
    match (← get).session.adopt? c with
    | some c => return (c, true)
    | none => return (← c.putToOperator, false)

end Conflict

/-- Settles conflicts in order. -/
def settleAll (settings : MergeSettings) (vanilla : Option Tree) :
    List Conflict → FileWork (List (Conflict × Bool))
  | [] => return []
  | c :: rest => do
    let settled ← c.settle settings vanilla
    return settled :: (← settleAll settings vanilla rest)

end ModWeave
