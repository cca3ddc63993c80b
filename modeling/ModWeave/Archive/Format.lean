import ModWeave.Text.Path

/-! The container formats, and how a name announces one. -/
namespace ModWeave

/-- What kind of container a file is. -/
inductive Format where
  | zip
  | sevenZ
deriving DecidableEq, Repr

namespace Format

def name : Format → String
  | zip => "zip"
  | sevenZ => "7z"

/-- The format that a name announces by what stands behind its last dot, in either case. -/
def ofName? (name : String) : Option Format := do
  let extension ← Text.afterLast? '.' name.toList
  match String.ofList (extension.map Char.toLower) with
  | "pak" | "zip" => some zip
  | "7z" => some sevenZ
  | _ => none

/-- The format that the text of a path announces by its last name. -/
def ofPath? (text : String) : Option Format := (Path.fileName? text).bind ofName?

/-- Whether a name announces a container. -/
def isContainer (name : String) : Bool := (ofName? name).isSome

end Format
end ModWeave
