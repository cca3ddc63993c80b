import ModWeave.Cli.Arguments
import ModWeave.Cli.Help
import ModWeave.Run.Merge

/-! What the program is asked to do. -/
namespace ModWeave.Cli

/-- How conflicts that need a decision are settled. -/
inductive Policy where
  /-- The operator is asked. -/
  | prompt
  /-- The earlier mod wins. -/
  | base
  /-- The later mod wins. -/
  | mod
deriving DecidableEq, Repr

def Policy.ofName? : String → Option Policy
  | "prompt" => some prompt
  | "base" => some base
  | "mod" => some mod
  | _ => none

inductive Command where
  | merge (request : MergeRequest) (policy : Policy)
  /-- Lists the files of an archive. -/
  | index (archive : String)
  /-- Shows the tree of a file. -/
  | tree (file : String)
  /-- Shows what a file changes in another. -/
  | compare (base modded : String)
  /-- Asks for the settings. -/
  | setup
deriving DecidableEq, Repr

structure Invocation where
  /-- The folder for settings and logs. -/
  dataFolder : String
  config : Option String
  verbose : Bool
  command : Command
deriving DecidableEq, Repr

/-- The path of the settings. -/
def Invocation.settingsPath (i : Invocation) : String :=
  i.config.getD (i.dataFolder ++ "/settings.json")

def require {α : Type} : Option α → Except Refusal α
  | some a => .ok a
  | none => .error .usage

/-- What a command without options is given: so many words. -/
def readPlain (name : String) (count : Nat) (words : List String) : Except Refusal (List String) := do
  return (← Grammar.read ⟨some name, [], some count, false⟩ words).plain

def mergeGrammar : Grammar where
  topic? := some "merge"
  switches := [⟨"base", none, .path⟩, ⟨"output", none, .path⟩,
    ⟨"policy", none, .oneOf ["prompt", "base", "mod"]⟩, ⟨"keep-temp", none, .nothing⟩]
  most? := none
  stops := false

def readMerge (words : List String) : Except Refusal Command := do
  let g ← mergeGrammar.read words
  let base ← require (g.value? "base")
  let output ← require (g.value? "output")
  let policy ← require (Policy.ofName? ((g.value? "policy").getD "prompt"))
  if g.plain.isEmpty then throw .usage
  return .merge ⟨base, g.plain, output, g.has "keep-temp"⟩ policy

/-- The command of a name with what stands behind it. -/
def readCommand (name : String) (words : List String) : Except Refusal Command :=
  match name with
  | "merge" => readMerge words
  | "index" => do
    let [archive] ← readPlain "index" 1 words | throw .usage
    return .index archive
  | "tree" => do
    let [file] ← readPlain "tree" 1 words | throw .usage
    return .tree file
  | "compare" => do
    let [base, modded] ← readPlain "compare" 2 words | throw .usage
    return .compare base modded
  | "setup" => do
    let [] ← readPlain "setup" 0 words | throw .usage
    return .setup
  | "help" =>
    match words with
    | [] => .error (.help none true)
    | [name] =>
      .error (if ((commandPages true).lookup name).isSome then .help (some name) true else .usage)
    | _ => .error .usage
  | _ => .error .usage

/-- What stands before a command's name. -/
def programGrammar : Grammar where
  topic? := none
  switches := [⟨"data-dir", none, .path⟩, ⟨"config", none, .path⟩, ⟨"verbose", some 'v', .nothing⟩]
  most? := none
  stops := true

/-- Reads a command line, without the program's own name. -/
def Invocation.ofArguments (words : List String) : Except Refusal Invocation := do
  let r ← programGrammar.readWords words .none none
  let name :: rest := r.rest | throw .usage
  let command ← readCommand name rest
  let g ← r.given.settle r.open?
  return ⟨(g.value? "data-dir").getD ".modmerge", g.value? "config", g.has "verbose", command⟩

end ModWeave.Cli
