import ModWeave.Archive.Format

/-!
Names of entries. A container may write a name with slashes of either kind and with segments that
lead nowhere; an index knows each entry by the one way to write its segments.
-/
namespace ModWeave.EntryName

/-- Whether a character parts the segments of a raw name. -/
def isSlash (c : Char) : Bool := c == '/' || c == '\\'

/-- The segments of a raw name that lead somewhere. -/
def steps (raw : String) : List (List Char) :=
  (Text.segments isSlash raw.toList).filter fun s => s ≠ [] ∧ s ≠ ['.']

/-- The name with single slashes between its segments. Fails for a name that leads nowhere or out
of the container. -/
def normalize? (raw : String) : Option String :=
  let steps := steps raw
  if steps = [] ∨ ['.', '.'] ∈ steps then none else some (String.ofList (Text.joinWith '/' steps))

/-- The segments of a normalized name. -/
def segments (name : String) : List String :=
  (Text.segments (· == '/') name.toList).map String.ofList

/-- The last segment. -/
def base (name : String) : String :=
  ((segments name).getLast?).getD name

/-- Whether a character can stand in any file name. -/
def isPlain (c : Char) : Bool := c.isAlphanum || c == '.' || c == '_' || c == '-'

/-- A name of the same length that can be given to any file. -/
def sanitize (name : String) : String :=
  String.ofList (name.toList.map fun c => if isPlain c then c else '_')

end ModWeave.EntryName
