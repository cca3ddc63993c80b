import ModWeave.Index.Basic

/-! Reading the bytes of entries. -/
namespace ModWeave

namespace Member

/-- The bytes of a member. `missing` is told of one that cannot be opened. -/
def read (m : Member) (missing : ArchiveError) : Except ArchiveError ByteArray :=
  match m with
  | intact _ _ _ content => .ok content.bytes
  | damaged .. => .error .io
  | unreadable _ => .error missing
  | contradictory _ => .error .contradictory

end Member

/-- The member that a raw name stands for. A zip container has a table of its names, in which the last member of
a name stands. A 7z container is gone through: each block is left at the first member of the name, folders among
them, and the last one found counts. A member on the way that cannot be opened ends the search. -/
def findMember? (format : Format) (blocks : List (List Member)) (name : String) : Option Member :=
  match format with
  | .zip => blocks.flatten.findRev? (·.name = name)
  | .sevenZ =>
    let met := blocks.filterMap fun block => block.find? fun m => m.isUnreadable || m.name = name
    met.find? (·.isUnreadable) <|> met.getLast?

/-- The bytes of the member with a raw name, in a container on the disk. -/
def Disk.readMember (d : Disk) (container : Path) (name : String) :
    Except ArchiveError ByteArray :=
  let shown := container.text
  match Format.ofPath? shown with
  | none => .error (.unsupportedFormat shown)
  | some format =>
    let malformed := ArchiveError.malformed shown (.notFormat format)
    match d.item? container with
    | some (.file (.packed actual _ blocks)) =>
      if actual = format then
        match findMember? format blocks name with
        | some m => m.read (if format = .zip then .missingEntry name else .malformed shown (.unreadable m.name))
        | none => .error (.missingEntry name)
      else .error malformed
    | some (.file (.contradictory actual _)) =>
      .error (if actual = format then .contradictory else malformed)
    | some _ => .error malformed
    | none => .error (if format = .zip then .io else malformed)

/-- The bytes at a location. -/
def Location.read (l : Location) (d : Disk) : Except ArchiveError ByteArray :=
  match l with
  | extracted path =>
    match d.read? path with
    | some content => .ok content.bytes
    | none => .error .io
  | packed container raw => d.readMember container raw

end ModWeave
