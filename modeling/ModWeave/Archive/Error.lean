import ModWeave.Text.Quoted
import ModWeave.Archive.Format

/-! What can go wrong with an archive. -/
namespace ModWeave

/-- What is wrong with a container. -/
inductive Defect where
  /-- The name of an entry leads nowhere or out of the container. -/
  | unsafeName (raw : String)
  /-- The bytes are no container of the format. -/
  | notFormat (format : Format)
  /-- A member cannot be opened. -/
  | unreadable (name : String)
deriving DecidableEq, Repr

def Defect.message : Defect → String
  | unsafeName raw => "unsafe entry name " ++ Text.quote raw
  | notFormat format => s!"not a readable {format.name} container"
  | unreadable name => "unreadable member " ++ Text.quote name

/-- Why an archive cannot be used. Paths are given as texts. -/
inductive ArchiveError where
  | notFound (path : String)
  | unsupportedFormat (path : String)
  | malformed (path : String) (defect : Defect)
  /-- The container contradicts itself. Whoever opens it breaks off there and then. -/
  | contradictory
  | missingEntry (name : String)
  | notText (name : String)
  /-- The disk refused. -/
  | io
deriving DecidableEq, Repr

def ArchiveError.message : ArchiveError → String
  | notFound path => s!"archive not found: {path}"
  | unsupportedFormat path => s!"unsupported archive format: {path}"
  | malformed path defect => s!"malformed archive {path}: {defect.message}"
  | contradictory => "the archive contradicts itself"
  | missingEntry name => s!"entry not found: {name}"
  | notText name => s!"entry {name} is not valid UTF-8 text"
  | io => "input or output failed"

end ModWeave
