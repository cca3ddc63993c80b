import ModWeave.Disk.Pack
import ModWeave.Run.MergeFile
import ModWeave.Run.Timestamp
import ModWeave.Run.Workspace

/-! A merge run: from archives on the disk to the packed output and the report. -/
namespace ModWeave

/-- What to merge. Paths are given as texts. -/
structure MergeRequest where
  base : String
  /-- The mods in the order in which they are merged. -/
  mods : List String
  output : String
  /-- Whether the scratch folder stays. -/
  keepTemp : Bool
deriving DecidableEq, Repr

/-- What a run takes from its surroundings. -/
structure Surroundings where
  /-- The folder for scratch folders, if the settings name none. -/
  tempRoot : String
  /-- A number that no other run has. -/
  tag : Nat
deriving DecidableEq, Repr

/-- Work on the disk that may end the run. What it did until then stays. -/
abbrev RunWork := ExceptT RunFailure (StateT Disk Dialogue)

namespace RunWork

def tell (n : Notice) : RunWork Unit := ExceptT.lift (StateT.lift (.tell n (.done ())))

def tellAll : List Notice → RunWork Unit
  | [] => return ()
  | n :: rest => do
    tell n
    tellAll rest

/-- The time, in milliseconds. -/
def clock : RunWork Nat := ExceptT.lift (StateT.lift (.clock .done))

/-- Work with archives; `wrap` tells what it is for. -/
def archives {α : Type} (wrap : ArchiveError → RunFailure)
    (f : Disk → Except ArchiveError α × Disk) : RunWork α := do
  let (result, disk) := f (← get)
  set disk
  match result with
  | .ok a => return a
  | .error e => throw (wrap e)

/-- Changes the disk, if it does not refuse. -/
def change (f : Disk → Option Disk) : RunWork Unit := do
  match f (← get) with
  | some disk => set disk
  | none => throw .io

end RunWork

namespace MergeRequest

open RunWork

/-- Refuses a run that cannot come to an end, before anything is written. -/
def check (q : MergeRequest) : RunWork Unit := do
  unless ((← get).open? q.base).isSome do
    tell (.baseNotFound q.base)
    throw (.baseNotFound q.base)
  if q.mods.isEmpty then throw .noMods
  match (q.base :: q.mods ++ [q.output]).find? fun path => (Format.ofPath? path).isNone with
  | some path => throw (.format (.unsupportedFormat path))
  | none => return ()

def loadBase (q : MergeRequest) (settings : Settings) (w : Workspace) : RunWork BaseArchive := do
  let began ← clock
  let base ← archives (.loading q.base) (BaseArchive.load q.base w.baseCache settings.cache)
  tell (.baseIndexed base.index.size (archiveName q.base) ((← clock) - began))
  tellAll base.index.duplicateNotices
  return base

/-- Extracts mods, which are counted from `number` on. -/
def extractMods (w : Workspace) (number : Nat) : List String → RunWork (List Index)
  | [] => return []
  | mod :: rest => do
    let index ← archives (.extracting mod) (Index.build .extract mod (w.modFolder number))
    tell (.modExtracted index.size (archiveName mod))
    tellAll index.duplicateNotices
    return index :: (← extractMods w (number + 1) rest)

/-- Makes the files of the output from those of the mods. -/
def mergeFiles (settings : Settings) (w : Workspace) (base : BaseArchive) (mods : List Index)
    (report : Report) : RunWork Report := do
  let (files, notices) := Collection.ofMods settings.merge.pathCorrection base.index mods
  tellAll notices
  let m : FileMerger := ⟨settings.merge, w.merged, ← clock⟩
  let (result, s) ← ExceptT.lift (StateT.lift
    ((m.mergeAll files.toList).run.run ⟨base, ← get, .new, report⟩))
  set s.disk
  match result with
  | .ok () => return s.report
  | .error e => throw e

/-- Packs the output and writes the report. -/
def finish (q : MergeRequest) (w : Workspace) (report : Report) : RunWork Report := do
  archives (.packing q.output) fun d =>
    match d.pack w.merged q.output with
    | .ok d => (.ok (), d)
    | .error e => (.error e, d)
  tell (.packCreated q.output)
  let report := { report with finished := some (Timestamp.text (← clock)) }
  let path := Report.pathFor q.output
  change (report.write? path)
  tell (.reportWritten path)
  tell (.summary report.summary)
  return report

/-- The run, inside its scratch folder. -/
def runIn (q : MergeRequest) (settings : Settings) (w : Workspace) : RunWork Report := do
  let report := Report.new q.base q.mods q.output (Timestamp.text (← clock))
  tell (.modList q.mods.length (archiveName q.base))
  let base ← q.loadBase settings w
  let mods ← extractMods w 1 q.mods
  q.finish w (← mergeFiles settings w base mods report)

/-- A whole run. Its scratch folder is removed at the end, however that comes, unless it is to
stay. -/
def run (q : MergeRequest) (settings : Settings) (around : Surroundings) : RunWork Report := do
  q.check
  let w := Workspace.ofRun (settings.tempRoot.getD around.tempRoot) ⟨← clock, around.tag⟩
  change w.create?
  let result ← ExceptT.lift (q.runIn settings w).run
  unless q.keepTemp do modify w.cleanUp
  match result with
  | .ok report => return report
  | .error e => throw e

end MergeRequest
end ModWeave
