import ModWeave.Archive.Zip

/-!
Containers made of files. Members are stored as they are, in the order given and under the names
given.
-/
namespace ModWeave

/-- A file to pack, with the name it gets. -/
abbrev NamedContent := String × Content

namespace Zip

open Bytes (ofFields ofNumber)

/-- Bit 11 of the flags: the name is UTF-8. -/
def utf8Flag : Nat := 1 <<< 11

/-- The fields that a member's own header and its directory entry share. -/
def sharedFields (name : ByteArray) (bytes : ByteArray) : List (Nat × Nat) :=
  [(2, 20), (2, utf8Flag), (2, 0), (2, 0), (2, 0x21), (4, (Bytes.crc32 bytes).toNat),
    (4, bytes.size), (4, bytes.size), (2, name.size), (2, 0)]

/-- A member's header and bytes. -/
def localPart (name : ByteArray) (bytes : ByteArray) : ByteArray :=
  ofNumber 4 localMark ++ ofFields (sharedFields name bytes) ++ name ++ bytes

/-- A member's directory entry; its header starts at `start`. -/
def directoryPart (name : ByteArray) (bytes : ByteArray) (start : Nat) : ByteArray :=
  ofNumber 4 directoryMark ++ ofNumber 2 20 ++ ofFields (sharedFields name bytes) ++
    ofFields [(2, 0), (2, 0), (2, 0), (4, 0), (4, start)] ++ name

/-- The members' headers and bytes, and the directory. -/
def parts (files : List NamedContent) : ByteArray × ByteArray :=
  files.foldl (fun (body, directory) (name, content) =>
    let name := name.toUTF8
    (body ++ localPart name content.bytes, directory ++ directoryPart name content.bytes body.size))
    (.empty, .empty)

/-- A zip container with all members stored. -/
def encode (files : List NamedContent) : ByteArray :=
  let (body, directory) := parts files
  body ++ directory ++ ofFields [(4, endingMark), (2, 0), (2, 0), (2, files.length),
    (2, files.length), (4, directory.size), (4, body.size), (2, 0)]

end Zip

namespace SevenZ

open Bytes (ofFields ofNumber)

/-- A number with as many leading one bits in its first byte as bytes follow it. -/
def number (n : Nat) : ByteArray :=
  match (List.range 8).find? fun k => n < 1 <<< (7 * (k + 1)) with
  | some k => ⟨#[UInt8.ofNat (256 - 1 <<< (8 - k) + n >>> (8 * k))]⟩ ++ ofNumber k n
  | none => ⟨#[0xFF]⟩ ++ ofNumber 8 n

def numbers (ns : List Nat) : ByteArray := ns.foldl (fun out n => out ++ number n) .empty

/-- Flags, eight to a byte, the first in the highest bit. -/
def flags (bs : List Bool) : ByteArray :=
  let byte (i : Nat) : UInt8 :=
    (List.range 8).foldl (fun b j => 2 * b + if bs.getD (8 * i + j) false then 1 else 0) 0
  ⟨(List.range ((bs.length + 7) / 8)).map byte |>.toArray⟩

/-- A name in UTF-16, ended by a zero. -/
def wideName (name : String) : ByteArray :=
  let units (c : Char) : List (Nat × Nat) :=
    if c.toNat < 0x10000 then [(2, c.toNat)]
    else [(2, 0xD800 + (c.toNat - 0x10000) / 0x400), (2, 0xDC00 + (c.toNat - 0x10000) % 0x400)]
  ofFields (name.toList.flatMap units ++ [(2, 0)])

/-- The bytes of each member that has any, each in a folder of its own. -/
def streams (files : List NamedContent) : List ByteArray :=
  (files.map fun f => f.2.bytes).filter fun b => b.size ≠ 0

/-- A property of the files: its kind, its size and its bytes. -/
def property (kind : Nat) (body : ByteArray) : ByteArray :=
  numbers [kind, body.size] ++ body

/-- Where the streams lie, how they are coded and what their sums are. -/
def streamsInfo (files : List NamedContent) : ByteArray :=
  let bodies := streams files
  let sizes := numbers (bodies.map ByteArray.size)
  if bodies.isEmpty then .empty
  else
    numbers [4, 6, 0, bodies.length, 9] ++ sizes ++ numbers [0, 7, 11, bodies.length, 0] ++
      bodies.foldl (fun out _ => out ++ numbers [1, 1, 0]) .empty ++ numbers [12] ++ sizes ++
      numbers [10, 1] ++ ofFields (bodies.map fun b => (4, (Bytes.crc32 b).toNat)) ++ numbers [0, 0]

/-- The names of the members and which of them have no bytes. -/
def filesInfo (files : List NamedContent) : ByteArray :=
  let isEmpty := files.map fun f => f.2.size == 0
  let empties := isEmpty.filter id
  numbers [5, files.length] ++
    (if empties.isEmpty then .empty
      else property 14 (flags isEmpty) ++ property 15 (flags empties)) ++
    property 17 (numbers [0] ++ files.foldl (fun out f => out ++ wideName f.1) .empty) ++ numbers [0]

/-- A 7z container with all members stored. -/
def encode (files : List NamedContent) : ByteArray :=
  let body := (streams files).foldl (· ++ ·) .empty
  let header := numbers [1] ++ streamsInfo files ++ filesInfo files ++ numbers [0]
  let start := ofFields [(8, body.size), (8, header.size), (4, (Bytes.crc32 header).toNat)]
  ⟨#[0x37, 0x7A, 0xBC, 0xAF, 0x27, 0x1C, 0, 4]⟩ ++ ofNumber 4 (Bytes.crc32 start).toNat ++ start ++
    body ++ header

end SevenZ

namespace Content

/-- The member that a file becomes. A 7z container marks folders and keeps their names without the
slash; in a zip container the name alone tells. -/
def toMember (format : Format) (file : NamedContent) : Member :=
  let (name, content) := file
  match format with
  | .zip => .intact name (Zip.isFolderName name) content.size content
  | .sevenZ =>
    if name.toList.getLast? = some '/' then
      .intact (String.ofList (name.toList.reverse.dropWhile (· == '/')).reverse) true 0 .empty
    else .intact name false content.size content

/-- The blocks that members are parted into: in a zip container one, in a 7z container one for each member
with bytes, and a last one for those without. -/
def blocksOf (format : Format) (members : List Member) : List (List Member) :=
  match format with
  | .zip => [members]
  | .sevenZ => (members.filter (·.size ≠ 0)).map ([·]) ++ [members.filter (·.size = 0)]

/-- A container of some files. In a 7z container a zero ends each name, so a name with a zero in it
counts as two. -/
def pack (format : Format) (files : List NamedContent) : Content :=
  let blocks := blocksOf format (files.map (toMember format))
  match format with
  | .zip => .packed .zip (Zip.encode files) blocks
  | .sevenZ =>
    let bytes := SevenZ.encode files
    if files.any fun file => Path.hasZero file.1 then .contradictory .sevenZ bytes
    else .packed .sevenZ bytes blocks

end Content
end ModWeave
