import ModWeave.Disk

/-! The scratch folder of a run. -/
namespace ModWeave

/-- What tells a run from all others: when it began, and a number drawn for it. -/
structure RunId where
  /-- In milliseconds since the start of 1970. -/
  began : Nat
  tag : Nat
deriving DecidableEq, Repr

/-- The name of a run's folder. The number is written with seven hexadecimal digits. -/
def RunId.folder (id : RunId) : String :=
  let tag := String.ofList ((Nat.toDigits 16 (id.tag % 0x10000000)).leftpad 7 '0')
  s!"ModMerger_{id.began}_{tag}"

/-- A run's folder. -/
structure Workspace where
  root : Path
deriving DecidableEq, Repr

namespace Workspace

/-- What is kept of the base archive. -/
def baseCache (w : Workspace) : Path := w.root ++ ["base_cache"]

/-- The files of the output, before they are packed. -/
def merged (w : Workspace) : Path := w.root ++ ["merged"]

/-- The files of a mod. Mods are counted from one. -/
def modFolder (w : Workspace) (number : Nat) : Path := w.root ++ [s!"mod_{number}"]

/-- The folder for a run below a root that all runs share. -/
def ofRun (tempRoot : String) (id : RunId) : Workspace := ⟨Path.ofText tempRoot ++ [id.folder]⟩

/-- Makes the folders that a run starts with. -/
def create? (w : Workspace) (d : Disk) : Option Disk := do
  (← d.makeFolders? w.baseCache).makeFolders? w.merged

/-- Removes the folder and all in it, if it is there. -/
def cleanUp (w : Workspace) (d : Disk) : Disk := (d.removeAll? w.root).getD d

end Workspace
end ModWeave
