import ModWeave.Cli.Command
import ModWeave.Cli.Console

/-! The program: what each command writes and does, and the status that it ends with. -/
namespace ModWeave.Cli

/-- Why a command fails. -/
inductive Failure where
  | io
  /-- A file to read. -/
  | unreadable (path : String)
  | notText (path : String)
  /-- Settings or messages that are not as they have to be. -/
  | badDocument
  | parse (path : String) (e : ParseError)
  | archive (e : ArchiveError)
  | run (e : RunFailure)
  /-- No terminal to ask at. -/
  | noTerminal
  /-- The log cannot be written. -/
  | noLog
  /-- The two sides cannot be compared. -/
  | outOfRange
deriving DecidableEq, Repr

/-- What is said when there is no terminal to ask at: what failed, and why. -/
def noTerminal : String × String := ("IO error: not a terminal", "not a terminal")

/-- The same in one line. -/
def noTerminalMessage : String := noTerminal.1 ++ ": " ++ noTerminal.2

namespace Failure

def context? : Failure → Option String
  | run e => e.context?
  | noTerminal => some Cli.noTerminal.1
  | _ => none

def message (texts : Catalog) : Failure → String
  | io => ioMessage
  | unreadable path => s!"reading {path}: {ioMessage}"
  | notText path => s!"reading {path}: stream did not contain valid UTF-8"
  | badDocument => "not the document that was expected"
  | parse path e => s!"{path}: {e.message}"
  | archive e => e.message
  | run e => e.message texts
  | noTerminal => Cli.noTerminal.2
  | noLog => ioMessage
  | outOfRange => MergeError.outOfRange.message

/-- The status that the program ends with. -/
def status : Failure → Nat
  | outOfRange | noLog => 101
  | _ => 1

end Failure

/-- What is around the program. -/
structure Environment where
  around : Surroundings
  /-- The language that is set for all programs. -/
  language : Option String
deriving DecidableEq, Repr

/-- How the program ends. -/
structure Ending where
  output : List Output
  status : Nat
  disk : Disk

/-- A text file. -/
def readText (d : Disk) (path : String) : Except Failure (List Char) :=
  match (d.open? path).bind Content.text? with
  | some text => .ok text
  | none => .error .io

/-- The settings, or those of a program without any. -/
def loadSettings (i : Invocation) (d : Disk) : Except Failure Settings :=
  if d.reaches i.settingsPath then do
    match Settings.parse? (← readText d i.settingsPath) with
    | some settings => .ok settings
    | none => .error .badDocument
  else .ok .default

/-- Saves settings. The folders above the file are made. -/
def saveSettings (i : Invocation) (s : Settings) (d : Disk) : Except Failure Disk :=
  let content := Content.ofText (String.ofList s.text)
  match (d.makeFoldersTo? i.settingsPath).bind (·.write? (Path.ofText i.settingsPath) content) with
  | some d => .ok d
  | none => .error .io

/-- The messages in the operator's language, with those of the operator's own file. -/
def loadCatalog (env : Environment) (settings : Settings) (d : Disk) : Except Failure Catalog := do
  let texts := Catalog.ofLanguage (settings.messageLanguage env.language)
  match settings.messagesFile with
  | none => .ok texts
  | some path =>
    match texts.overrideBy? (← readText d path) with
    | some texts => .ok texts
    | none => .error .badDocument

/-- The tree of a file. Its name tells the language. -/
def loadTree (settings : Settings) (path : String) (d : Disk) : Except Failure Tree :=
  match d.open? path with
  | none => .error (.unreadable path)
  | some content =>
    match content.text? with
    | none => .error (.notText path)
    | some text =>
      let language : Language := if settings.merge.isMarkup path then .markup else .script
      (language.parse text).mapError (.parse path)

/-- An entry in the list of an archive. -/
def entryLine (e : Entry) : Output :=
  let size := String.ofList ((toString e.size).toList.leftpad 10 ' ')
  let chain := " > ".intercalate e.provenance
  .line s!"{size}  {e.name}  [{chain}]"

def duplicateLine (d : Duplicate) : Output :=
  let replaced := " > ".intercalate d.replaced
  let kept := " > ".intercalate d.kept
  .line s!"duplicate {d.name}: [{replaced}] replaced by [{kept}]"

/-- Lists the files of an archive. -/
def listArchive (env : Environment) (settings : Settings) (archive : String) (time : Nat) (d : Disk) :
    Except Failure (List Output) × Disk :=
  let around := env.around
  let w := Workspace.ofRun (settings.tempRoot.getD around.tempRoot) ⟨time, around.tag⟩
  match w.create? d with
  | none => (.error .io, d)
  | some d =>
    let (result, d) := Index.build .index archive w.baseCache d
    let output := (result.mapError .archive).map fun index =>
      index.toList.map entryLine ++ index.duplicates.map duplicateLine ++
        [.line "", .line s!"{index.size} files"]
    (output, w.cleanUp d)

/-- Shows what a file changes in another. -/
def compare (texts : Catalog) (settings : Settings) (base modded : String) (d : Disk) :
    Except Failure (List Output) := do
  let baseTree ← loadTree settings base d
  let modTree ← loadTree settings modded d
  match diff ⟨(Path.fileName? modded).getD "", base, modded⟩ baseTree modTree with
  | none => .error .outOfRange
  | some changes =>
    let counts := s!"{changes.conflicts.length} conflict(s), {changes.additions.length} addition(s)"
    return changes.conflicts.flatMap (·.lines texts) ++ changes.additions.map (·.output) ++
      [.line counts]

/-- The folder for logs, with a log that nothing is written to. -/
def openLog (i : Invocation) (d : Disk) : Except Failure Disk :=
  let log := i.dataFolder ++ "/logs/modmerge.log"
  match d.makeFoldersTo? log with
  | none => .error .io
  | some d =>
    if d.isFile (Path.ofText log) then .ok d
    else
      match d.write? (Path.ofText log) .empty with
      | some d => .ok d
      | none => .error .noLog

def setupHeader : String := "
ModMerge - Setup Wizard
=======================

"

/-- The run of a merge, in which only conflicts that the policy leaves open are asked about. -/
def merge (env : Environment) (settings : Settings) (request : MergeRequest) (policy : Policy)
    (d : Disk) : Dialogue (Except Failure (List Output) × Disk) := do
  let run := (request.run settings env.around).run.run d
  let (result, d) ← match policy with
    | .prompt => run
    | .base => run.decided .keepAllBase
    | .mod => run.decided .takeAllMod
  return ((result.mapError .run).map fun _ => [], d)

/-- Carries out a command. Its messages are known before it starts. -/
def carryOut (env : Environment) (i : Invocation) (d : Disk) :
    Except Failure (Catalog × Dialogue (Except Failure (List Output) × Disk)) := do
  let settings ← loadSettings i d
  let plain := Catalog.ofLanguage none
  match i.command with
  | .merge request policy =>
    let d ← openLog i d
    match loadCatalog env settings d with
    | .error e => return (plain, .done (.error e, d))
    | .ok texts => return (texts, merge env settings request policy d)
  | .index archive =>
    return (plain, .clock fun time => .done (listArchive env settings archive time d))
  | .tree file =>
    let tree ← loadTree settings file d
    return (plain, .done (.ok [.out tree.outline], d))
  | .compare base modded =>
    let texts ← loadCatalog env settings d
    return (texts, .done (compare texts settings base modded d, d))
  | .setup => return (plain, .done (.error .noTerminal, d))

/-- What is written before a command fails or not. -/
def Command.header : Command → List Output
  | .setup => [.out setupHeader]
  | _ => []

/-- The end of a command. -/
def conclude (texts : Catalog) (header : List Output) :
    Except Failure (List Output) × Disk → Ending
  | (.ok output, disk) => ⟨header ++ output, 0, disk⟩
  | (.error e, disk) => ⟨header ++ [errorOutput e.context? (e.message texts)], e.status, disk⟩

/-- The program, as a dialogue with the operator: the messages it uses, and how it ends. -/
def program (env : Environment) (arguments : List String) (d : Disk) : Catalog × Dialogue Ending :=
  let plain := Catalog.ofLanguage none
  match Invocation.ofArguments arguments with
  | .error (.help topic? long) => (plain, .done ⟨[.out (helpText topic? long)], 0, d⟩)
  | .error .usage => (plain, .done ⟨[.err (helpText none false)], 2, d⟩)
  | .ok i =>
    match carryOut env i d with
    | .error e => (plain, .done (conclude plain [] (.error e, d)))
    | .ok (texts, work) => (texts, work.bind fun end_ => .done (conclude texts i.command.header end_))

/-- The program without a terminal: all that it writes, its status and the disk that it leaves. -/
def unattended (env : Environment) (time : Nat) (arguments : List String) (d : Disk) : Ending :=
  let (texts, work) := program env arguments d
  let (ending, past) := work.hold (fun _ _ => .refuse noTerminalMessage) time []
  { ending with output := past.reverse.flatMap (Event.output · texts) ++ ending.output }

end ModWeave.Cli
