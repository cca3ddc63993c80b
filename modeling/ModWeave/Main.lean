import Std.Time.DateTime.Timestamp
import ModWeave.Cli.Program
import ModWeave.Cli.Setup

/-!
The program on a real disk and terminal. What a command needs to know of the disk is read first; the
command itself works on that copy, and what it changed is written at the end.
-/
namespace ModWeave.Cli

/-- The paths that a command reads or writes. -/
def Command.paths : Command → List String
  | .merge request _ => request.base :: request.output :: Report.pathFor request.output :: request.mods
  | .index archive => [archive]
  | .tree file => [file]
  | .compare base modded => [base, modded]
  | .setup => []

/-- What stands at a path. -/
def readItem (path : Path) : IO (Option Item) := do
  try
    let place ← IO.FS.realPath (Path.text path)
    if ← place.isDir then return some .folder
    return some (.file (Content.ofBytes (← IO.FS.readBinFile place)))
  catch _ => return none

/-- Takes over what stands at a path and above it. -/
def look (d : Disk) (text : String) : IO Disk := do
  let path := Path.ofText text
  (Path.above path ++ [path]).foldlM (fun d path => do
    match ← readItem path with
    | some item => return { d with items := d.items.insert path item }
    | none => return d) d

/-- Writes what differs from the disk as it was. -/
def writeBack (before after : Disk) : IO Unit :=
  after.items.toList.forM fun (path, item) =>
    match item, before.items[path]? with
    | .folder, some .folder => pure ()
    | .folder, _ => IO.FS.createDirAll (Path.text path)
    | .file content, some (.file old) =>
      if content.bytes.data == old.bytes.data then pure () else IO.FS.writeBinFile (Path.text path) content.bytes
    | .file content, _ => IO.FS.writeBinFile (Path.text path) content.bytes

def write : Output → IO Unit
  | .out text => IO.print text
  | .err text => IO.eprint text

def now : IO Nat := do
  return (← Std.Time.Timestamp.now).toMillisecondsSinceUnixEpoch.toInt.toNat

/-- Asks until a choice is named. An empty input ends the run. -/
partial def choose (texts : Catalog) (c : Conflict) (input : IO.FS.Stream) : IO Answer := do
  IO.println (texts.render ⟨"CHOICE_PROMPT", []⟩)
  Choice.all.forM fun choice => IO.println ("  " ++ c.choiceLabel texts choice)
  let word := (← input.getLine).trimAscii.toString
  match word.toNat?.bind Choice.ofNumber? with
  | some choice => return .choose choice
  | none => if word = "" ∨ word = "q" then return .abort else choose texts c input

/-- Asks about a conflict, if there is a terminal. -/
def consult (texts : Catalog) (c : Conflict) : IO Answer := do
  (c.output texts).forM write
  let input ← IO.getStdin
  if ← input.isTty then choose texts c input else return .refuse noTerminalMessage

/-- Holds a dialogue with the operator. -/
def converse {α : Type} (texts : Catalog) : Dialogue α → IO α
  | .done a => return a
  | .tell n rest => do
    write (n.output texts)
    converse texts rest
  | .ask c next => do converse texts (next (← consult texts c))
  | .clock next => do converse texts (next (← now))

/-- Asks a question until it is answered. -/
partial def Question.put (q : Question) (s : Settings) (input : IO.FS.Stream) : IO Settings := do
  IO.print s!"{q.text} [{q.current s}]: "
  let word := (← input.getLine).trimAscii.toString
  match q.answer? s (if word = "" then q.current s else word) with
  | some s => return s
  | none => q.put s input

/-- Asks for new settings and saves them. -/
def runSetup (i : Invocation) (s : Settings) (disk : Disk) (input : IO.FS.Stream) : IO UInt32 := do
  IO.print setupHeader
  let s ← Question.all.foldlM (fun s q => q.put s input) s
  let ending := conclude (Catalog.ofLanguage none) [] <|
    match saveSettings i s disk with
    | .ok disk => (.ok [.line "", .line s!"Configuration saved to {i.settingsPath}"], disk)
    | .error e => (.error e, disk)
  writeBack disk ending.disk
  ending.output.forM write
  return ending.status.toUInt32

/-- Carries out a command line. -/
def runProgram (arguments : List String) : IO UInt32 := do
  let temp := (← IO.getEnv "TMPDIR").getD "/tmp"
  let env : Environment := ⟨⟨temp, ← IO.rand 0 0xFFFFFFF⟩, ← IO.getEnv "MODMERGE_LANG"⟩
  let disk ← match Invocation.ofArguments arguments with
    | .error _ => pure Disk.empty
    | .ok i => do
      let disk ← look .empty i.settingsPath
      let settings := (loadSettings i disk).toOption.getD .default
      let input ← IO.getStdin
      if i.command = .setup ∧ (loadSettings i disk).isOk then
        if ← input.isTty then
          return ← runSetup i settings disk input
      let others := (i.dataFolder ++ "/logs/modmerge.log") :: settings.tempRoot.getD temp ::
        settings.messagesFile.toList ++ i.command.paths
      others.foldlM look disk
  let (texts, work) := program env arguments disk
  let ending ← converse texts work
  writeBack disk ending.disk
  ending.output.forM write
  return ending.status.toUInt32

end ModWeave.Cli

def main (arguments : List String) : IO UInt32 := ModWeave.Cli.runProgram arguments
