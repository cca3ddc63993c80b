import ModWeave.Archive.Content
import ModWeave.Bytes.Crc32
import ModWeave.Bytes.Inflate
import ModWeave.Text.CodePage
import ModWeave.Text.Utf8

/-!
Zip containers. A container ends in a record that tells where its directory starts; the directory
lists the members, and each member's bytes follow a header of their own. All places are counted
from the first byte of the container, which other bytes may precede.
-/
namespace ModWeave.Zip

open Bytes (number?)

/-- The record at the end of a container, as far as reading needs it. -/
structure Ending where
  /-- Where the record starts. -/
  start : Nat
  disk : Nat
  directoryDisk : Nat
  /-- Members listed on this disk, and on all disks. -/
  count : Nat
  total : Nat
  directorySize : Nat
  directoryStart : Nat
  /-- Bytes of the comment behind the record. -/
  comment : Nat
deriving DecidableEq, Repr

def endingSize : Nat := 22
def endingMark : Nat := 0x06054b50
def directoryMark : Nat := 0x02014b50
def localMark : Nat := 0x04034b50
def locatorMark : Nat := 0x07064b50
def wideEndingMark : Nat := 0x06064b50

/-- The kind of the extra field that describes an encryption. -/
def lockKind : Nat := 0x9901

/-- The method of a member that such a field has to describe. -/
def lockedMethod : Nat := 99

/-- The greatest number of a narrow field; it says that a wide field has the number. -/
def wide : Nat := 0xFFFFFFFF

/-- The greatest number of a wide field. -/
def greatestNumber : Nat := 0xFFFFFFFFFFFFFFFF

/-- The greatest place that can be gone to in a file. -/
def greatestPlace : Nat := 0x7FFFFFFFFFFFFFFF

/-- Whether the record says that a field of it was too narrow. -/
def Ending.tooSmall (e : Ending) : Bool :=
  e.disk = 0xFFFF || e.directoryDisk = 0xFFFF || e.count = 0xFFFF || e.total = 0xFFFF ||
    e.directorySize = wide || e.directoryStart = wide

/-- The record at a place, if one is there in full. -/
def Ending.read? (data : ByteArray) (start : Nat) : Option Ending := do
  let e : Ending := {
    start
    disk := ← number? data (start + 4) 2
    directoryDisk := ← number? data (start + 6) 2
    count := ← number? data (start + 8) 2
    total := ← number? data (start + 10) 2
    directorySize := ← number? data (start + 12) 4
    directoryStart := ← number? data (start + 16) 4
    comment := ← number? data (start + 20) 2 }
  if start + endingSize + e.comment ≤ data.size then some e else none

/-- The last record, found by its mark. It stands at most a longest comment before the end. -/
def Ending.find? (data : ByteArray) : Option Ending :=
  if data.size < endingSize then none
  else
    let last := data.size - endingSize
    let offset? := (List.range (min last 0xFFFF + 1)).find? fun back =>
      number? data (last - back) 4 = some endingMark
    offset?.bind fun back => read? data (last - back)

/-- Where the first byte of the container is, where its directory is and how many members that
lists. -/
structure Layout where
  origin : Nat
  directory : Nat
  count : Nat
deriving DecidableEq, Repr

/-- The layout that a wide record tells, which is searched from its stated place on. -/
def Layout.ofWide? (data : ByteArray) (e : Ending) (locator : Nat) : Option Layout := do
  let disk ← number? data (locator + 4) 4
  let stated ← number? data (locator + 8) 8
  let _ ← number? data (locator + 16) 4
  if !e.tooSmall ∧ e.disk ≠ disk then none
  if e.start < 60 then none
  let origin ← (List.range (e.start - 60 + 1 - stated)).find? fun n =>
    number? data (stated + n) 4 = some wideEndingMark
  let start := stated + origin
  if (← number? data (start + 16) 4) ≠ (← number? data (start + 20) 4) then none
  if greatestPlace < (← number? data (start + 48) 8) + origin then none
  return ⟨origin, (← number? data (start + 48) 8) + origin, ← number? data (start + 32) 8⟩

def Layout.find? (data : ByteArray) : Option Layout := do
  let e ← Ending.find? data
  if !e.tooSmall ∧ e.disk ≠ e.directoryDisk then none
  let distance := 20 + endingSize + e.comment
  if distance ≤ data.size ∧ number? data (data.size - distance) 4 = some locatorMark then
    ofWide? data e (data.size - distance)
  else if e.directorySize + e.directoryStart ≤ e.start then
    return ⟨e.start - e.directorySize - e.directoryStart, e.start - e.directorySize, e.count⟩
  else none

/-- A member as the directory lists it. -/
structure Record where
  name : String
  encrypted : Bool
  /-- Whether an extra field describes an encryption. -/
  locked : Bool
  method : Nat
  crc : Nat
  packedSize : Nat
  size : Nat
  /-- Where the member's own header starts. -/
  header : Nat
deriving DecidableEq, Repr

/-- The number for a field and the place of the next wide number. Only a field that was too narrow
takes one; there is no next place once one is missing. -/
def widened (extra : ByteArray) (place? : Option Nat) (narrow : Nat) : Nat × Option Nat :=
  match place? with
  | none => (narrow, none)
  | some place =>
    if narrow = wide then
      match number? extra place 8 with
      | some n => (n, some (place + 8))
      | none => (narrow, none)
    else (narrow, place?)

/-- Takes over the wide numbers at a place, and gives the place behind them. -/
def Record.widen (r : Record) (extra : ByteArray) (place : Nat) : Record × Option Nat :=
  let (size, place?) := widened extra (some place) r.size
  let (packedSize, place?) := widened extra place? r.packedSize
  let (header, place?) := widened extra place? r.header
  ({ r with size, packedSize, header }, place?)

/-- What an extra field says about the encryption of a member. -/
structure Lock where
  version : Nat
  vendor : Nat
  strength : Nat
  /-- How the bytes behind the encryption are packed. -/
  method : Nat
deriving DecidableEq, Repr

/-- Bytes of a lock. -/
def Lock.size : Nat := 7

def Lock.read? (extra : ByteArray) (place : Nat) : Option Lock := do
  let version ← number? extra place 2
  let vendor ← number? extra (place + 2) 2
  let strength ← number? extra (place + 4) 1
  let method ← number? extra (place + 5) 2
  return { version, vendor, strength, method }

/-- Whether the format knows such a lock. -/
def Lock.isKnown (k : Lock) : Bool :=
  k.vendor == 0x4541 && (k.version == 1 || k.version == 2) && 1 ≤ k.strength && k.strength ≤ 3

/-- Goes through the extra fields: the first kind holds wide numbers, another one a lock, the rest
is passed over. A field that is cut off ends the list, a lock that is not known fails. Behind a lock
as many bytes again are passed over. -/
def Record.extend? (r : Record) (extra : ByteArray) : (fuel place : Nat) → Option Record
  | 0, _ => some r
  | fuel + 1, place =>
    match number? extra place 2, number? extra (place + 2) 2 with
    | some kind, some length =>
      if kind = 1 then
        match r.widen extra (place + 4) with
        | (r, some next) => r.extend? extra fuel (max next (place + 4 + length))
        | (r, none) => some r
      else if kind = lockKind then
        if length ≠ Lock.size then none
        else
          match Lock.read? extra (place + 4) with
          | none => some r
          | some k =>
            if k.isKnown then
              { r with locked := true, method := k.method }.extend? extra fuel
                (place + 4 + 2 * Lock.size)
            else none
      else r.extend? extra fuel (place + 4 + length)
    | _, _ => some r

/-- The entry of the directory at a place, and the place behind it. -/
def Record.read? (data : ByteArray) (start origin : Nat) : Option (Record × Nat) := do
  if (← number? data start 4) ≠ directoryMark then none
  let flags ← number? data (start + 8) 2
  let nameLength ← number? data (start + 28) 2
  let extraLength ← number? data (start + 30) 2
  let commentLength ← number? data (start + 32) 2
  let extra := start + 46 + nameLength
  let stop := extra + extraLength + commentLength
  if data.size < stop then none
  let bytes := (Bytes.slice data (start + 46) nameLength).toList
  let name := if flags.testBit 11 then Text.ofBytesLossy bytes else bytes.map Text.ofCodePage437
  let r : Record := {
    name := String.ofList name
    encrypted := flags % 2 = 1
    locked := false
    method := ← number? data (start + 10) 2
    crc := ← number? data (start + 16) 4
    packedSize := ← number? data (start + 20) 4
    size := ← number? data (start + 24) 4
    header := ← number? data (start + 42) 4 }
  let r ← r.extend? (Bytes.slice data extra extraLength) extraLength 0
  if r.method = lockedMethod ∧ !r.locked then none
  if greatestNumber < r.header + origin then none
  return ({ r with header := r.header + origin }, stop)

/-- The entries of the directory from a place on. -/
def records? (data : ByteArray) (origin : Nat) : (count start : Nat) → Option (List Record)
  | 0, _ => some []
  | count + 1, start => do
    let (r, next) ← Record.read? data start origin
    return r :: (← records? data origin count next)

/-- Whether a name is that of a folder. -/
def isFolderName (name : String) : Bool :=
  match name.toList.getLast? with
  | some c => c = '/' || c = '\\'
  | none => false

/-- What opening a member gives. -/
inductive Opened where
  | unreadable
  | contradictory
  | damaged
  | intact (bytes : ByteArray)

/-- The bytes of a member: stored as they are or deflated, and checked against their sum. A lock on a
member that is not flagged as encrypted is a contradiction. -/
def Record.unpack (data : ByteArray) (r : Record) : Opened :=
  let known := r.method = 0 ∨ r.method = 8
  match number? data r.header 4, number? data (r.header + 26) 2, number? data (r.header + 28) 2 with
  | some mark, some nameLength, some extraLength =>
    if mark ≠ localMark ∨ r.encrypted ∨ ¬known then .unreadable
    else if r.locked then .contradictory
    else
      let packed := Bytes.slice data (r.header + 30 + nameLength + extraLength) r.packedSize
      match if r.method = 0 then some packed else Bytes.inflate? packed with
      | some bytes => if (Bytes.crc32 bytes).toNat = r.crc then .intact bytes else .damaged
      | none => .damaged
  | _, _, _ => .unreadable

/-- The members that the directory lists, if the bytes are a zip container. -/
def records (data : ByteArray) : Option (List Record) := do
  let layout ← Layout.find? data
  records? data layout.origin layout.count layout.directory

end Zip

namespace Content

/-- What bytes hold. Containers are opened down to a depth that their bytes cannot reach unless they
unpack to more than themselves. -/
def ofBytes (data : ByteArray) : Content := go (data.size + 1) data
where
  go : Nat → ByteArray → Content
    | 0, data => plain data
    | depth + 1, data =>
      match Zip.records data with
      | none => plain data
      | some records =>
        packed .zip data [records.map fun r =>
          match r.unpack data with
          | .unreadable => .unreadable r.name
          | .contradictory => .contradictory r.name
          | .damaged => .damaged r.name (Zip.isFolderName r.name) r.size
          | .intact bytes => .intact r.name (Zip.isFolderName r.name) r.size (go depth bytes)]

end Content
end ModWeave
