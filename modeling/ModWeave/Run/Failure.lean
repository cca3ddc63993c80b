import ModWeave.Archive.Error
import ModWeave.Merge.Materialize
import ModWeave.Run.Notice
import ModWeave.Token.Error

/-!
Why a run fails. A failure in one file is reported and the run goes on, unless the operator ended the
run or an edit would lie outside a text; all other failures end it.
-/
namespace ModWeave

/-- What is said when the disk refuses. -/
def ioMessage : String := "the disk refused (os error)"

/-- Why a file of the base archive cannot be had. -/
inductive BaseError where
  | reading (name : String) (e : ArchiveError)
  /-- Its text was wanted for a tree. -/
  | noText (e : ArchiveError)
  | parsing (name : String) (e : ParseError)
deriving DecidableEq, Repr

/-- What was being done, where that is said. -/
def BaseError.context? : BaseError → Option String
  | reading name _ => some s!"reading {name} from the base archive"
  | noText _ => none
  | parsing name _ => some s!"parsing base {name}"

/-- Why a file could not be merged. -/
inductive FileFailure where
  /-- No mod has the file. -/
  | unclaimed (name : String)
  | io
  /-- A name on the way to the file has a zero in it. -/
  | zeroInName
  | merge (e : MergeError)
  /-- The operator gave no choice. -/
  | refused (reason : String)
  | aborted
deriving DecidableEq, Repr

def FileFailure.message : FileFailure → String
  | unclaimed name => s!"no mod ships {name}"
  | io => ioMessage
  | zeroInName => "file name contained an unexpected NUL byte"
  | merge e => e.message
  | refused reason => reason
  | aborted => "merge aborted by the operator"

/-- Why a run ends early. -/
inductive RunFailure where
  | baseNotFound (path : String)
  | noMods
  /-- The format of an archive to read or to write. -/
  | format (e : ArchiveError)
  | loading (path : String) (e : ArchiveError)
  | extracting (path : String) (e : ArchiveError)
  | packing (path : String) (e : ArchiveError)
  | io
  | aborted
  | outOfRange
deriving DecidableEq, Repr

namespace RunFailure

/-- What was being done, where that is said. -/
def context? : RunFailure → Option String
  | loading path _ => some s!"loading base archive {path}"
  | extracting path _ => some s!"extracting mod {path}"
  | packing path _ => some s!"packing {path}"
  | _ => none

def archiveError? : RunFailure → Option ArchiveError
  | format e | loading _ e | extracting _ e | packing _ e => some e
  | _ => none

def message (texts : Catalog) : RunFailure → String
  | baseNotFound path => texts.render (Notice.baseNotFound path).message
  | noMods => "no mod archives to merge"
  | format e | loading _ e | extracting _ e | packing _ e => e.message
  | io => ioMessage
  | aborted => FileFailure.aborted.message
  | outOfRange => MergeError.outOfRange.message

end RunFailure

/-- How a failure in a file ends the run, if it does. -/
def FileFailure.ending? : FileFailure → Option RunFailure
  | aborted => some .aborted
  | merge .outOfRange => some .outOfRange
  | _ => none

end ModWeave
