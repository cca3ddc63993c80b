/-! The 32-bit cyclic redundancy check that zip containers keep for each member. -/
namespace ModWeave.Bytes

/-- The remainder after one more bit: the polynomial 0xEDB88320, lowest bit first. -/
def crcBit (r : UInt32) : UInt32 :=
  if r &&& 1 = 1 then (r >>> 1) ^^^ 0xEDB88320 else r >>> 1

/-- The remainder of each byte value. -/
def crcTable : Array UInt32 :=
  Array.ofFn fun n : Fin 256 => Nat.repeat crcBit 8 n.val.toUInt32

/-- The remainder after one more byte. -/
def crcByte (r : UInt32) (b : UInt8) : UInt32 :=
  crcTable.getD ((r ^^^ b.toUInt32) &&& 0xFF).toNat 0 ^^^ (r >>> 8)

def crc32 (data : ByteArray) : UInt32 :=
  data.foldl crcByte 0xFFFFFFFF ^^^ 0xFFFFFFFF

end ModWeave.Bytes
