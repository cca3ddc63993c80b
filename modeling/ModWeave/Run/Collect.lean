import ModWeave.Index.Basic
import ModWeave.Run.Notice
import ModWeave.Settings

/-! Collecting the files of all mods under the paths that they get in the output. -/
namespace ModWeave

/-- A file as one mod has it. -/
structure ModFile where
  /-- The name of the mod's archive. -/
  source : String
  path : Path
deriving DecidableEq, Repr

/-- The name of an archive: the last name in its path. -/
def archiveName (path : String) : String := (Path.fileName? path).getD path

/-- What is told about entries that came up more than once in an archive. -/
def Index.duplicateNotices (i : Index) : List Notice :=
  i.duplicates.map fun d =>
    .duplicateEntry d.name (archiveName i.source) (" > ".intercalate d.kept)

namespace PathCorrection

/-- The path in the output for a mod's entry, and what is told about it. -/
def correct (p : PathCorrection) (base : Index) (name : String) : String × List Notice :=
  match base.lookup name with
  | .exact => (name, [])
  | .unknown => (name, [.pathUnknown name])
  | .suggested canonical =>
    let suggestion := Notice.pathSuggestion name canonical
    match p with
    | smart => (canonical, [suggestion, .pathCorrected canonical name])
    | keep => (name, [suggestion])

end PathCorrection

/-- The paths of the output, each with the mods that have a file for it, in the order of the mods. -/
abbrev Collection := Std.TreeMap String (List ModFile)

namespace Collection

/-- Adds a file that lies on the disk. -/
def add (p : PathCorrection) (base : Index) (source : String) (so : Collection × List Notice)
    (e : Entry) : Collection × List Notice :=
  match e.location with
  | .packed .. => so
  | .extracted path =>
    let (target, notices) := p.correct base e.name
    (so.1.insert target (so.1.getD target [] ++ [⟨source, path⟩]), so.2 ++ notices)

/-- Adds the files of a mod. -/
def addMod (p : PathCorrection) (base : Index) (so : Collection × List Notice) (mod : Index) :
    Collection × List Notice :=
  mod.toList.foldl (add p base (archiveName mod.source)) so

/-- The files of some mods, and what is told about their paths. -/
def ofMods (p : PathCorrection) (base : Index) (mods : List Index) : Collection × List Notice :=
  mods.foldl (addMod p base) (∅, [])

end Collection
end ModWeave
