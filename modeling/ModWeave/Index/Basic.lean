import Std.Data.TreeMap
import ModWeave.Text.Lowercase
import ModWeave.Index.Name
import ModWeave.Archive.Error
import ModWeave.Disk

/-!
Indexes of archives: every file that can be reached from a container, also inside containers in it,
and where its bytes are. An index is built by registering entries one after the other; of two with
one name the later one stays.
-/
namespace ModWeave

/-- Where the bytes of an entry are. -/
inductive Location where
  /-- In a file of their own. -/
  | extracted (path : Path)
  /-- In a container that stands on the disk, as the member of the raw name. -/
  | packed (container : Path) (raw : String)
deriving DecidableEq, Repr

/-- A file in an archive. -/
structure Entry where
  /-- The normalized name, which is unique in an index. -/
  name : String
  /-- The containers from the archive down to the one that holds the file. -/
  provenance : List String
  location : Location
  size : Nat
deriving DecidableEq, Repr

/-- The last segment of the name in lower case. -/
def Entry.fileName (e : Entry) : String := Text.lowercase (EntryName.base e.name)

/-- A name that was registered again. -/
structure Duplicate where
  name : String
  /-- The containers of the entry that went. -/
  replaced : List String
  /-- The containers of the entry that came. -/
  kept : List String
deriving DecidableEq, Repr

/-- How an index knows a name. -/
inductive PathLookup where
  | exact
  /-- Not itself, but an entry with this name is the same in other case, or has its file name. -/
  | suggested (name : String)
  | unknown
deriving DecidableEq, Repr

structure Index where
  /-- The path of the archive as it was given. -/
  source : String
  entries : Std.TreeMap String Entry
  /-- The name registered last for each lower-case file name. -/
  byFileName : Std.TreeMap String String
  /-- Latest first. -/
  replacements : List Duplicate

namespace Index

/-- The index of an archive without files. -/
def new (source : String) : Index := ⟨source, ∅, ∅, []⟩

/-- Adds an entry, in place of one of the same name. -/
def register (i : Index) (e : Entry) : Index where
  source := i.source
  entries := i.entries.insert e.name e
  byFileName := i.byFileName.insert e.fileName e.name
  replacements :=
    match i.entries[e.name]? with
    | some old => ⟨e.name, old.provenance, e.provenance⟩ :: i.replacements
    | none => i.replacements

def get? (i : Index) (name : String) : Option Entry := i.entries[name]?

/-- All entries in the order of their names. -/
def toList (i : Index) : List Entry := i.entries.values

/-- The names registered again, in the order in which that happened. -/
def duplicates (i : Index) : List Duplicate := i.replacements.reverse

def size (i : Index) : Nat := i.entries.size

def isEmpty (i : Index) : Bool := i.entries.isEmpty

/-- The entry registered last under a file name, in any case. -/
def findByFileName? (i : Index) (fileName : String) : Option Entry :=
  (i.byFileName[Text.lowercase fileName]?).bind i.get?

/-- Finds a name: as it is, else the first that differs in case only, else the file name. -/
def lookup (i : Index) (name : String) : PathLookup :=
  if (i.get? name).isSome then .exact
  else
    match i.entries.keys.find? fun k => Text.lowercase k = Text.lowercase name with
    | some k => .suggested k
    | none =>
      match i.findByFileName? (EntryName.base name) with
      | some e => .suggested e.name
      | none => .unknown

end Index
end ModWeave
