import ModWeave.Bytes.Sha256
import ModWeave.Disk

/-! Whether files hold the same bytes. -/
namespace ModWeave.Disk

/-- The SHA-256 digest of a file, in hexadecimal. Nothing for what is no file. -/
def digest? (d : Disk) (path : Path) : Option String :=
  (d.read? path).map fun content => Bytes.hex (Bytes.sha256 content.bytes)

/-- Whether two files have the same size and the same digest. Nothing unless both are there. -/
def identical? (d : Disk) (a b : Path) : Option Bool := do
  let m ← d.read? a
  let n ← d.read? b
  if m.size ≠ n.size then return false
  return (Bytes.sha256 m.bytes).data == (Bytes.sha256 n.bytes).data

end ModWeave.Disk
