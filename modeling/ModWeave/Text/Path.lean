import ModWeave.Text.Segments

/-!
Paths on a disk. A path is the list of names that lead from the working folder to a file or folder;
its text has a slash between them.
-/
namespace ModWeave

/-- Names from the working folder down. -/
abbrev Path := List String

namespace Path

/-- The names in the text of a path. Empty names and `.` lead nowhere. -/
def names (text : String) : List String :=
  ((Text.segments (· == '/') text.toList).map String.ofList).filter fun s => s ≠ "" ∧ s ≠ "."

/-- Whether a path is one of the folders that are always there: the working folder, those above it,
and the place that a slash in front of a text leads to. -/
def isAnchor (path : Path) : Bool := path.all (· == "..") || path == ["/"]

/-- One name further. `..` leads back from the folder before it, and from the working folder out. -/
def step (path : Path) (name : String) : Path :=
  if name = ".." then
    if path = ["/"] then path
    else if path.isAnchor then path ++ [".."]
    else path.dropLast
  else path ++ [name]

/-- Where a text starts from. -/
def start (text : String) : Path := if text.toList.head? = some '/' then ["/"] else []

/-- The path that a text leads to. -/
def ofText (text : String) : Path := (names text).foldl step (start text)

/-- The folders on the way, in order. -/
def foldersTo (text : String) : List Path :=
  ((names text).dropLast.foldl (fun (paths : List Path × Path) name =>
    (paths.1 ++ [paths.2.step name], paths.2.step name)) ([], start text)).1

/-- Whether a text can only lead to a folder, as one with a slash at its end does. -/
def leadsToFolder (text : String) : Bool :=
  ((Text.segments (· == '/') text.toList).getLast?).any fun s => s.isEmpty || s == ['.'] || s == ['.', '.']

/-- The text of a path. -/
def text (path : Path) : String := "/".intercalate path

/-- The last name in the text of a path, unless it only leads back. -/
def fileName? (text : String) : Option String :=
  match (names text).getLast? with
  | some ".." => none
  | name => name

/-- Whether a zero stands in a name. -/
def hasZero (name : String) : Bool := name.toList.contains '\x00'

/-- Whether a file or folder can have this name. -/
def isName (name : String) : Bool := name ≠ "" && !hasZero name && name.utf8ByteSize ≤ 255

/-- Whether the text of a path is short enough to be followed. -/
def isShort (text : String) : Bool := text.utf8ByteSize < 4096

/-- Whether every name of the path can be given, and all of them together. -/
def isValid (path : Path) : Bool := path.all isName && isShort path.text

/-- The folders above a path, outermost first, without the working folder. -/
def above : Path → List Path
  | [] => []
  | [_] => []
  | name :: rest => [name] :: (above rest).map (name :: ·)

end Path
end ModWeave
