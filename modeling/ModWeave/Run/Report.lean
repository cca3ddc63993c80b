import ModWeave.Disk
import ModWeave.Document.Decode
import ModWeave.Document.Writing
import ModWeave.Merge.Conflict

/-! The report of a merge run: what became of every file, and how every conflict was settled. -/
namespace ModWeave

/-- What became of a file. -/
inductive FileAction where
  /-- Only one mod has it. -/
  | copied (source : String)
  /-- All mods have the same bytes. -/
  | identical (source : String)
  /-- It cannot be merged; the last mod's copy is used. -/
  | lastWins (source : String)
  /-- It was merged, with so many conflicts in all. -/
  | merged (conflicts : Nat)
  /-- A side could not be parsed; the last mod's copy is used. -/
  | parseFallback (source reason : String)
  /-- It was not merged; the copy of `fallback` is used, if one is. -/
  | failed (reason : String) (fallback : Option String)
deriving DecidableEq, Repr

namespace FileAction

def name : FileAction → String
  | copied _ => "copied"
  | identical _ => "identical"
  | lastWins _ => "last_wins"
  | merged _ => "merged"
  | parseFallback .. => "parse_fallback"
  | failed .. => "failed"

/-- What is reported besides the name. -/
def details : FileAction → List (String × Document)
  | copied source | identical source | lastWins source => [("source", .ofString source)]
  | merged conflicts => [("conflicts", .natural conflicts)]
  | parseFallback source reason => [("source", .ofString source), ("reason", .ofString reason)]
  | failed reason fallback => [("reason", .ofString reason), ("fallback", .ofString? fallback)]

def fields (a : FileAction) : List (String × Document) :=
  ("action", .ofString a.name) :: a.details

/-- The names of an action's details. -/
def detailNames : String → List String
  | "merged" => ["conflicts"]
  | "parse_fallback" => ["source", "reason"]
  | "failed" => ["reason", "fallback"]
  | _ => ["source"]

/-- The action with a name and some details; only a fallback may be missing. -/
def ofDetails? : String → List (Option Document) → Option FileAction
  | "copied", [some source] => source.toString?.map copied
  | "identical", [some source] => source.toString?.map identical
  | "last_wins", [some source] => source.toString?.map lastWins
  | "merged", [some conflicts] => conflicts.toWord?.map merged
  | "parse_fallback", [some source, some reason] => do
    return parseFallback (← source.toString?) (← reason.toString?)
  | "failed", [some reason, fallback] => do
    return failed (← reason.toString?)
      (← Document.orElse? fallback none (Document.toOption? Document.toString?))
  | _, _ => none

/-- The action that a document states: a record with its name and its details, or a list of these in
their order. -/
def ofDocument? : Document → Option FileAction
  | .record fields => do
    let fields ← Document.named? fields
    let action ← (← Document.unique? fields "action").bind Document.toString?
    ofDetails? action (← (detailNames action).mapM (Document.unique? fields))
  | .list (.text (some action) :: details) => ofDetails? action (details.map some)
  | _ => none

end FileAction

/-- A file of the output, with the mods that have it in their order. -/
structure FileReport where
  name : String
  sources : List String
  action : FileAction
deriving DecidableEq, Repr

def FileReport.toDocument (r : FileReport) : Document :=
  .ofFields ([("entry_name", .ofString r.name), ("sources", .ofStrings r.sources)] ++
    r.action.fields)

/-- How a conflict was settled. -/
structure ConflictReport where
  names : SourceNames
  signature : String
  location : String
  typeName : String
  baseLine : Nat
  modLine : Option Nat
  choice : Option Choice
  /-- Whether it was settled without asking. -/
  automatic : Bool
deriving DecidableEq, Repr

namespace ConflictReport

def ofConflict (c : Conflict) (automatic : Bool) : ConflictReport where
  names := c.names
  signature := c.signature
  location := c.location
  typeName := c.typeName
  baseLine := c.base.node.line
  modLine := c.mod.map (·.node.line)
  choice := c.resolution
  automatic := automatic

/-- The name of the choice, empty for none. -/
def choiceName (r : ConflictReport) : String := (r.choice.map Choice.name).getD ""

def toDocument (r : ConflictReport) : Document :=
  .ofFields [("file_name", .ofString r.names.file), ("signature", .ofString r.signature),
    ("location", .ofString r.location), ("conflict_type", .ofString r.typeName),
    ("base_source", .ofString r.names.base), ("mod_source", .ofString r.names.mod),
    ("base_line", .natural r.baseLine), ("mod_line", .ofNat? r.modLine),
    ("choice", .ofString r.choiceName), ("automatic", .bool r.automatic)]

end ConflictReport

/-- How many files there were, and how many of each outcome. -/
structure Summary where
  processed : Nat
  copied : Nat
  merged : Nat
  mergedWithConflicts : Nat
  failed : Nat
deriving DecidableEq, Repr

namespace Summary

def none : Summary := ⟨0, 0, 0, 0, 0⟩

/-- Counts one more file. -/
def record (s : Summary) (a : FileAction) : Summary :=
  let s := { s with processed := s.processed + 1 }
  match a with
  | .copied _ | .identical _ | .lastWins _ | .parseFallback .. => { s with copied := s.copied + 1 }
  | .merged 0 => { s with merged := s.merged + 1 }
  | .merged _ => { s with mergedWithConflicts := s.mergedWithConflicts + 1 }
  | .failed .. => { s with failed := s.failed + 1 }

def toDocument (s : Summary) : Document :=
  .ofFields [("processed", .natural s.processed), ("copied", .natural s.copied),
    ("merged", .natural s.merged), ("merged_with_conflicts", .natural s.mergedWithConflicts),
    ("failed", .natural s.failed)]

end Summary

/-- A report. Times are texts. -/
structure Report where
  base : String
  mods : List String
  output : String
  started : String
  finished : Option String
  files : List FileReport
  conflicts : List ConflictReport
  summary : Summary
deriving DecidableEq, Repr

namespace Report

def new (base : String) (mods : List String) (output started : String) : Report :=
  ⟨base, mods, output, started, none, [], [], .none⟩

/-- Adds a file and counts it. -/
def addFile (r : Report) (f : FileReport) : Report :=
  { r with files := r.files ++ [f], summary := r.summary.record f.action }

def addConflicts (r : Report) (cs : List ConflictReport) : Report :=
  { r with conflicts := r.conflicts ++ cs }

def toDocument (r : Report) : Document :=
  .ofFields [("base", .ofString r.base), ("mods", .ofStrings r.mods),
    ("output", .ofString r.output), ("started_at", .ofString r.started),
    ("finished_at", .ofString? r.finished), ("files", .list (r.files.map FileReport.toDocument)),
    ("conflicts", .list (r.conflicts.map ConflictReport.toDocument)),
    ("summary", r.summary.toDocument)]

def text (r : Report) : List Char := r.toDocument.pretty

/-- The path of the report on an output. -/
def pathFor (output : String) : String := output ++ ".report.json"

/-- Writes the report, under another name first. Its folder has to be there. -/
def write? (r : Report) (path : String) (d : Disk) : Option Disk := do
  guard (d.hasFoldersTo path)
  let path := Path.ofText path
  let name := path.getLast?.getD ""
  let draft := path.dropLast ++ [s!".{name}.tmp"]
  let d ← d.write? draft (.ofText (String.ofList r.text))
  d.move? draft path

end Report
end ModWeave
