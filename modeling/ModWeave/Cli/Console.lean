import ModWeave.Run.Dialogue
import ModWeave.Run.Failure

/-! What the program writes. -/
namespace ModWeave

namespace Cli

/-- Text for one of the two streams that the program writes to. -/
inductive Output where
  | out (text : String)
  | err (text : String)
deriving DecidableEq, Repr

namespace Output

/-- A line. -/
def line (text : String) : Output := out (text ++ "\n")

def errorLine (text : String) : Output := err (text ++ "\n")

/-- All that goes to the first stream. -/
def stdout (os : List Output) : String :=
  String.join (os.map fun | out text => text | err _ => "")

/-- All that goes to the second stream. -/
def stderr (os : List Output) : String :=
  String.join (os.map fun | out _ => "" | err text => text)

end Output

/-- Text set in from the left, from its second line on too. -/
def indented (text : String) : String :=
  "    " ++ String.ofList (text.toList.flatMap fun c => if c = '\n' then "\n    ".toList else [c])

/-- An error, below what was being done. -/
def errorOutput (context? : Option String) (message : String) : Output :=
  match context? with
  | none => .errorLine s!"Error: {message}"
  | some context => .errorLine ("Error: " ++ context ++ "\n\nCaused by:\n" ++ indented message)

end Cli

open Cli

/-- A notice as the console shows it. -/
def Notice.output (n : Notice) (texts : Catalog) : Output :=
  let text := texts.render n.message
  match n.level with
  | .success => .line ("  " ++ text)
  | .warning => .line ("! " ++ text)
  | .error => .errorLine ("x " ++ text)

namespace Conflict

/-- Both sides of a conflict, below what it is. -/
def lines (c : Conflict) (texts : Catalog) : List Output :=
  [.line (texts.render c.message), .line (String.ofList c.unifiedDiff)]

/-- A conflict about which the operator is asked. -/
def output (c : Conflict) (texts : Catalog) : List Output := .line "" :: c.lines texts

end Conflict

namespace Addition

/-- An addition, with where it goes. -/
def output (a : Addition) : Output :=
  let parent := if a.parent.isEmpty then "<root>" else " > ".intercalate a.parent
  .line s!"+ {a.signature} (in {parent})"

end Addition

/-- What passes in a dialogue as the console shows it. -/
def Event.output (e : Event) (texts : Catalog) : List Output :=
  match e with
  | .told n => [n.output texts]
  | .asked c _ => c.output texts

end ModWeave
