import ModWeave.Disk.Identity
import ModWeave.Index.Name
import ModWeave.Run.Fold

/-!
What becomes of each file of the output. A file that cannot be merged is the copy of the last mod that
has it.
-/
namespace ModWeave

namespace Disk

/-- Copies a file. The folders above the target are made. -/
def copy? (d : Disk) (source target : Path) : Option Disk := do
  let content ← d.read? source
  (← d.makeFolders? target.dropLast).write? target content

/-- Writes a text. The folders above it are made. -/
def writeText? (d : Disk) (target : Path) (text : List Char) : Option Disk := do
  (← d.makeFolders? target.dropLast).write? target (.ofText (String.ofList text))

/-- Whether all files are the same as the first. Files behind the first that differs are not read. -/
def allIdentical? (d : Disk) (first : Path) : List Path → Option Bool
  | [] => some true
  | path :: rest => do if ← d.identical? first path then d.allIdentical? first rest else return false

end Disk

namespace FileMerger

/-- Where a file of the output is put until it is packed. -/
def target (m : FileMerger) (file : String) : Path := m.staging ++ EntryName.segments file

/-- Puts a file of the output in its place. -/
def put (m : FileMerger) (file : String) (write? : Disk → Path → Option Disk) : FileWork Unit := do
  if (m.target file).any Path.hasZero then throw .zeroInName
  FileWork.change (write? · (m.target file))

/-- Copies one mod's file to the output. -/
def stage (m : FileMerger) (file : String) (copy : ModFile) : FileWork Unit :=
  m.put file fun d target => d.copy? copy.path target

/-- Merges the copies of a file that have a structure to merge by. Conflicts are reported once the
file is written. -/
def mergeStructured (m : FileMerger) (file : String) (language : Language) (first : ModFile)
    (rest : List ModFile) : FileWork FileAction := do
  match ← m.mergeCopies file language (first :: rest) with
  | .error e =>
    let last := rest.getLastD first
    m.stage file last
    FileWork.tell (.fileParseFailed file e.source e.reason last.source)
    return .parseFallback last.source e.reason
  | .ok merged =>
    m.put file fun d target => d.writeText? target merged.tree.text
    modify fun s => { s with report := s.report.addConflicts merged.conflicts }
    let conflicts := merged.conflicts.length
    FileWork.tell <|
      if conflicts = 0 then .fileMerged file (rest.length + 1)
      else .fileMergedWithConflicts file conflicts
    return .merged conflicts

/-- Makes a file of the output from the copies of some mods. -/
def mergeFile (m : FileMerger) (file : String) : List ModFile → FileWork FileAction
  | [] => throw (.unclaimed file)
  | [only] => do
    m.stage file only
    FileWork.tell (.fileCopied file)
    return .copied only.source
  | first :: rest => do
    let same ← FileWork.orIo ((← get).disk.allIdentical? first.path (rest.map (·.path)))
    if same then
      m.stage file first
      FileWork.tell (.fileIdentical file)
      return .identical first.source
    else
      match m.settings.language? file with
      | some language => m.mergeStructured file language first rest
      | none =>
        let last := rest.getLastD first
        m.stage file last
        FileWork.tell (.fileNotMergeable file last.source)
        return .lastWins last.source

/-- Copies the last mod's file to the output, if it can be copied. -/
def stageLast? (m : FileMerger) (file : String) (copies : List ModFile) (d : Disk) :
    Option (String × Disk) := do
  let last ← copies.getLast?
  return (last.source, ← d.copy? last.path (m.target file))

/-- Puts the last mod's copy in the place of a file that could not be merged. -/
def fallBack (m : FileMerger) (file : String) (copies : List ModFile) (e : FileFailure) :
    StateT Progress Dialogue FileAction := do
  let fallback ← modifyGet fun s =>
    match m.stageLast? file copies s.disk with
    | some (source, disk) => (some source, { s with disk })
    | none => (none, s)
  StateT.lift (.tell (.fileFailed file e.message fallback) (.done ()))
  return .failed e.message fallback

/-- Makes all files of the output, in order, and reports on each. -/
def mergeAll (m : FileMerger) :
    List (String × List ModFile) → ExceptT RunFailure (StateT Progress Dialogue) Unit
  | [] => return ()
  | (file, copies) :: rest => do
    let action ← match ← (m.mergeFile file copies).run with
      | .ok action => pure action
      | .error e =>
        match e.ending? with
        | some ending => throw ending
        | none => m.fallBack file copies e
    let entry : FileReport := ⟨file, copies.map (·.source), action⟩
    modify fun s => { s with report := s.report.addFile entry }
    m.mergeAll rest

end FileMerger
end ModWeave
