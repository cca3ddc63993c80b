/-! Numbers in byte order: the least significant byte stands first. -/
namespace ModWeave.Bytes

/-- The number in `width` bytes from `start` on, if they are all there. -/
def number? (data : ByteArray) (start : Nat) : Nat → Option Nat
  | 0 => some 0
  | width + 1 => do
    let low ← data[start]?
    let high ← number? data (start + 1) width
    return low.toNat + 256 * high

/-- The lowest `width` bytes of a number. -/
def ofNumber : Nat → Nat → ByteArray
  | 0, _ => .empty
  | width + 1, n => ⟨#[UInt8.ofNat n]⟩ ++ ofNumber width (n / 256)

/-- The bytes from `start` on, at most `count` of them. -/
def slice (data : ByteArray) (start count : Nat) : ByteArray := data.extract start (start + count)

/-- Fields of the given widths, one after the other. -/
def ofFields (fields : List (Nat × Nat)) : ByteArray :=
  fields.foldl (fun out (width, n) => out ++ ofNumber width n) .empty

end ModWeave.Bytes
