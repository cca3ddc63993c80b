import ModWeave.Index.Read

/-!
A cache of what entries hold. Each entry that is still packed leaves its container at most once: a
copy is kept in a folder. A copy that cannot be kept is no failure, but the last one that is tried.
-/
namespace ModWeave

/-- A folder for copies, and whether copies are still kept and used. -/
structure ContentCache where
  folder : Path
  enabled : Bool
deriving DecidableEq, Repr

namespace ContentCache

def new (folder : Path) : ContentCache := ⟨folder, true⟩

/-- Where the copy of an entry is kept. -/
def copyPath (c : ContentCache) (name : String) : Path := c.folder ++ EntryName.segments name

/-- Keeps a copy. It is written under another name first, so that no one reads a part of it. -/
def store? (d : Disk) (path : Path) (bytes : ByteArray) : Option Disk := do
  let d ← d.makeFolders? path.dropLast
  let (number, d) := d.fresh
  let name := path.getLast?.getD ""
  let draft := path.dropLast ++ ["." ++ name ++ "." ++ Disk.serialText 19 number ++ ".tmp"]
  let d ← d.write? draft (.plain bytes)
  d.move? draft path

/-- The bytes of an entry: of its own file, of its copy, or of its container, in which case a copy is
kept. -/
def bytes (c : ContentCache) (d : Disk) (e : Entry) :
    Except ArchiveError ByteArray × ContentCache × Disk :=
  match e.location with
  | .extracted _ => (e.location.read d, c, d)
  | .packed .. =>
    let path := c.copyPath e.name
    match if c.enabled then d.read? path else none with
    | some copy => (.ok copy.bytes, c, d)
    | none =>
      match e.location.read d with
      | .error e => (.error e, c, d)
      | .ok bytes =>
        if c.enabled then
          match store? d path bytes with
          | some d => (.ok bytes, c, d)
          | none => (.ok bytes, { c with enabled := false }, d)
        else (.ok bytes, c, d)

/-- The text of an entry. Its bytes have to be UTF-8. -/
def text (c : ContentCache) (d : Disk) (e : Entry) :
    Except ArchiveError (List Char) × ContentCache × Disk :=
  let (result, c, d) := c.bytes d e
  let text := result.bind fun bytes =>
    match String.fromUTF8? bytes with
    | some s => .ok s.toList
    | none => .error (.notText e.name)
  (text, c, d)

end ContentCache
end ModWeave
