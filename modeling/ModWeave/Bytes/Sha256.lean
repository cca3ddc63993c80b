import ModWeave.Bytes.Hex

/-! The SHA-256 digest. -/
namespace ModWeave.Bytes.Sha256

/-- The first 32 bits of the fractional parts of the cube roots of the first 64 primes. -/
def roundConstants : List UInt32 := [
  0x428a2f98, 0x71374491, 0xb5c0fbcf, 0xe9b5dba5, 0x3956c25b, 0x59f111f1, 0x923f82a4, 0xab1c5ed5,
  0xd807aa98, 0x12835b01, 0x243185be, 0x550c7dc3, 0x72be5d74, 0x80deb1fe, 0x9bdc06a7, 0xc19bf174,
  0xe49b69c1, 0xefbe4786, 0x0fc19dc6, 0x240ca1cc, 0x2de92c6f, 0x4a7484aa, 0x5cb0a9dc, 0x76f988da,
  0x983e5152, 0xa831c66d, 0xb00327c8, 0xbf597fc7, 0xc6e00bf3, 0xd5a79147, 0x06ca6351, 0x14292967,
  0x27b70a85, 0x2e1b2138, 0x4d2c6dfc, 0x53380d13, 0x650a7354, 0x766a0abb, 0x81c2c92e, 0x92722c85,
  0xa2bfe8a1, 0xa81a664b, 0xc24b8b70, 0xc76c51a3, 0xd192e819, 0xd6990624, 0xf40e3585, 0x106aa070,
  0x19a4c116, 0x1e376c08, 0x2748774c, 0x34b0bcb5, 0x391c0cb3, 0x4ed8aa4a, 0x5b9cca4f, 0x682e6ff3,
  0x748f82ee, 0x78a5636f, 0x84c87814, 0x8cc70208, 0x90befffa, 0xa4506ceb, 0xbef9a3f7, 0xc67178f2]

/-- The eight working words. -/
structure State where
  a : UInt32
  b : UInt32
  c : UInt32
  d : UInt32
  e : UInt32
  f : UInt32
  g : UInt32
  h : UInt32
deriving DecidableEq

/-- The first 32 bits of the fractional parts of the square roots of the first eight primes. -/
def State.initial : State :=
  ⟨0x6a09e667, 0xbb67ae85, 0x3c6ef372, 0xa54ff53a, 0x510e527f, 0x9b05688c, 0x1f83d9ab, 0x5be0cd19⟩

def State.add (s t : State) : State :=
  ⟨s.a + t.a, s.b + t.b, s.c + t.c, s.d + t.d, s.e + t.e, s.f + t.f, s.g + t.g, s.h + t.h⟩

def rotateRight (w n : UInt32) : UInt32 := (w >>> n) ||| (w <<< (32 - n))

/-- One round, with its constant already added to its message word. -/
def State.round (s : State) (word : UInt32) : State :=
  let s1 := rotateRight s.e 6 ^^^ rotateRight s.e 11 ^^^ rotateRight s.e 25
  let choose := (s.e &&& s.f) ^^^ (~~~s.e &&& s.g)
  let t1 := s.h + s1 + choose + word
  let s0 := rotateRight s.a 2 ^^^ rotateRight s.a 13 ^^^ rotateRight s.a 22
  let majority := (s.a &&& s.b) ^^^ (s.a &&& s.c) ^^^ (s.b &&& s.c)
  ⟨t1 + (s0 + majority), s.a, s.b, s.c, s.d + t1, s.e, s.f, s.g⟩

/-- The message as whole blocks: a one bit, zero bits and the length in bits behind it. -/
def padded (data : ByteArray) : ByteArray :=
  let zeros := (119 - data.size % 64) % 64
  let bits := data.size * 8
  let length := (List.range 8).map fun i => UInt8.ofNat (bits >>> (56 - 8 * i))
  data ++ ⟨((0x80 : UInt8) :: List.replicate zeros 0 ++ length).toArray⟩

/-- The word in four bytes, most significant first. -/
def word (data : ByteArray) (start : Nat) : UInt32 :=
  (List.range 4).foldl (fun w i => (w <<< 8) ||| (data[start + i]?.getD 0).toUInt32) 0

/-- The message words of a block; each later one depends on four earlier ones. -/
def schedule (data : ByteArray) (start : Nat) : Array UInt32 :=
  let first := Array.ofFn fun i : Fin 16 => word data (start + 4 * i.val)
  (List.range 48).foldl (fun ws i =>
    let before (n : Nat) : UInt32 := ws.getD (16 + i - n) 0
    let s0 := rotateRight (before 15) 7 ^^^ rotateRight (before 15) 18 ^^^ (before 15 >>> 3)
    let s1 := rotateRight (before 2) 17 ^^^ rotateRight (before 2) 19 ^^^ (before 2 >>> 10)
    ws.push (before 16 + s0 + before 7 + s1)) first

/-- The state after one more block. -/
def block (data : ByteArray) (s : State) (start : Nat) : State :=
  s.add ((List.zipWith (· + ·) roundConstants (schedule data start).toList).foldl State.round s)

def State.bytes (s : State) : ByteArray :=
  let words : List UInt32 := [s.a, s.b, s.c, s.d, s.e, s.f, s.g, s.h]
  ⟨(words.flatMap fun (w : UInt32) => [(w >>> 24).toUInt8, (w >>> 16).toUInt8, (w >>> 8).toUInt8,
    w.toUInt8]).toArray⟩

end Sha256

/-- The SHA-256 digest of a message. -/
def sha256 (data : ByteArray) : ByteArray :=
  let message := Sha256.padded data
  ((List.range (message.size / 64)).foldl (fun s i => Sha256.block message s (64 * i))
    Sha256.State.initial).bytes

end ModWeave.Bytes
