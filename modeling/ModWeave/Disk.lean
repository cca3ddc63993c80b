import Std.Data.TreeMap
import ModWeave.Archive.Content

/-!
Disks as values: what stands at each path. A file stands in a folder that is there, and a write
either takes place or leaves the disk as it was.
-/
namespace ModWeave

/-- What can stand at a path. -/
inductive Item where
  | folder
  | file (content : Content)

/-- A disk. Some folders are always there and have no item of their own. -/
structure Disk where
  items : Std.TreeMap Path Item
  /-- Numbers below this one have been given out for names that no one else uses. -/
  serial : Nat
  /-- What the clock shows, in milliseconds, when each number is given out. -/
  clock : Nat → Nat
  /-- The paths that the disk refuses to write to. They stay the same while work goes on; where refusals come and
  go, one disk is taken for another between two calls. -/
  refuses : Path → Bool

namespace Disk

/-- Nothing is on the disk, it refuses nothing, and the clock stands still. -/
def empty : Disk := ⟨∅, 0, fun _ => 1000000000000, fun _ => false⟩

def item? (d : Disk) (path : Path) : Option Item :=
  if path.isAnchor then some .folder else d.items[path]?

def isFolder (d : Disk) (path : Path) : Bool :=
  match d.item? path with
  | some .folder => true
  | _ => false

/-- What a file holds, if there is a file. -/
def read? (d : Disk) (path : Path) : Option Content :=
  match d.item? path with
  | some (.file content) => some content
  | _ => none

def isFile (d : Disk) (path : Path) : Bool := (d.read? path).isSome

def has (d : Disk) (path : Path) : Bool := (d.item? path).isSome

/-- Whether the folders are there on the way that a text leads. -/
def hasFoldersTo (d : Disk) (text : String) : Bool := (Path.foldersTo text).all d.isFolder

/-- The path that a text leads to. The folders on the way have to be there. -/
def resolve? (d : Disk) (text : String) : Option Path :=
  let path := Path.ofText text
  if Path.isShort text && d.hasFoldersTo text && (!Path.leadsToFolder text || d.isFolder path) then
    some path
  else none

/-- What the file holds that a text leads to. -/
def open? (d : Disk) (text : String) : Option Content := (d.resolve? text).bind d.read?

/-- Whether a text leads to anything. -/
def reaches (d : Disk) (text : String) : Bool := (d.resolve? text).any d.has

/-- Whether anything can be put at a path. -/
def accepts (d : Disk) (path : Path) : Bool :=
  path.isValid && !d.refuses path && d.isFolder path.dropLast

/-- Makes one folder, unless it is there. Fails when a file is in its place. -/
def makeFolder? (d : Disk) (path : Path) : Option Disk :=
  match d.item? path with
  | some .folder => some d
  | some (.file _) => none
  | none => if d.accepts path then some { d with items := d.items.insert path .folder } else none

/-- Makes a folder and those above it. -/
def makeFolders? (d : Disk) (path : Path) : Option Disk :=
  (path.above ++ [path]).foldlM makeFolder? d

/-- Makes the folders on the way that a text leads. -/
def makeFoldersTo? (d : Disk) (text : String) : Option Disk :=
  if Path.isShort text then (Path.foldersTo text).foldlM makeFolder? d else none

/-- Puts a file at a path, in place of a file that is there. Fails without a folder for it, and
when a folder is in its place. -/
def write? (d : Disk) (path : Path) (content : Content) : Option Disk :=
  if d.isFolder path then none
  else if d.accepts path then some { d with items := d.items.insert path (.file content) }
  else none

/-- Removes a file. -/
def remove? (d : Disk) (path : Path) : Option Disk :=
  if d.isFile path then some { d with items := d.items.erase path } else none

/-- Removes a path and all below it. Fails when nothing is there. -/
def removeAll? (d : Disk) (path : Path) : Option Disk :=
  if d.has path then some { d with items := d.items.filter fun p _ => !path.isPrefixOf p } else none

/-- Moves a file to another path, in place of a file that is there. -/
def move? (d : Disk) (source target : Path) : Option Disk := do
  let content ← d.read? source
  let d ← d.write? target content
  if source = target then some d else d.remove? source

/-- A number that has not been given out before. -/
def fresh (d : Disk) : Nat × Disk := (d.serial, { d with serial := d.serial + 1 })

/-- Such a number as part of a name, in some number of digits. -/
def serialText (digits number : Nat) : String :=
  String.ofList ((Nat.toDigits 10 number).leftpad digits '0')

/-- The files below a folder with the names that lead to them from there, in the order of those
names. -/
def filesBelow (d : Disk) (folder : Path) : List (Path × Content) :=
  d.items.toList.filterMap fun (path, item) =>
    match item with
    | .file content =>
      if folder.isPrefixOf path ∧ folder ≠ path then some (path.drop folder.length, content) else none
    | .folder => none

/-- The names that stand directly in a folder, in order. -/
def namesIn (d : Disk) (folder : Path) : List String :=
  d.items.keys.filterMap fun path =>
    if path.dropLast = folder then path.getLast? else none

end Disk
end ModWeave
