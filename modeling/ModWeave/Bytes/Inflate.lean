import ModWeave.Bytes.Number

/-!
Reading deflate streams. A stream is a run of bits, taken from each byte from its lowest bit on;
`inflate?` gives what it unpacks to. A stream that breaks the format or ends before its last block
does unpacks to nothing; what follows the last block is not looked at.
-/
namespace ModWeave.Bytes.Deflate

/-- Why a stream cannot be read on. -/
inductive Fault where
  | exhausted
  | corrupt
deriving DecidableEq, Repr

/-- The bit at a position. -/
def bit (data : ByteArray) (pos : Nat) : Except Fault Nat :=
  match data[pos / 8]? with
  | some b => .ok ((b.toNat >>> (pos % 8)) % 2)
  | none => .error .exhausted

/-- The number in `count` bits, lowest first. -/
def bits (data : ByteArray) : Nat → Nat → Except Fault Nat
  | 0, _ => .ok 0
  | count + 1, pos => do
    let low ← bit data pos
    let high ← bits data count (pos + 1)
    return low + 2 * high

/-- A canonical prefix code: how many codes there are of each length from one bit on, and the
symbols in the order of their codes. -/
structure Code where
  counts : List Nat
  symbols : Array Nat

/-- The lengths a code can have, in bits. -/
def codeSizes : List Nat := (List.range 15).map (· + 1)

/-- The code that gives each symbol a code of the stated length; zero stands for no code. -/
def Code.ofLengths (lengths : List Nat) : Code :=
  let indexed := lengths.zipIdx
  { counts := codeSizes.map fun n => lengths.count n
    symbols := (codeSizes.flatMap fun n => (indexed.filter (·.1 == n)).map (·.2)).toArray }

/-- Whether every run of bits starts with a code and no code starts another: the shares that the
codes take of all runs of the greatest length fill them up. -/
def Code.isComplete (c : Code) : Bool :=
  (List.zipWith (fun count n => count <<< (15 - n)) c.counts codeSizes).foldl (· + ·) 0 == 0x8000

/-- Whether there is no code, or a lone one of one bit. -/
def Code.isTrivial (c : Code) : Bool :=
  c.symbols.size == 0 || (c.symbols.size == 1 && c.counts.head? == some 1)

/-- The symbol whose code stands at a position, and the position behind it. `first` is the first
code of the current length, `index` the place of its symbol. -/
def Code.symbol (c : Code) (data : ByteArray) (pos : Nat) : Except Fault (Nat × Nat) :=
  go c.counts 0 0 0 pos
where
  go : List Nat → (code first index pos : Nat) → Except Fault (Nat × Nat)
    | [], _, _, _, _ => .error .corrupt
    | count :: rest, code, first, index, pos => do
      let code := code + (← bit data pos)
      if code < first + count then
        return (c.symbols.getD (index + (code - first)) 0, pos + 1)
      else go rest (2 * code) (2 * (first + count)) (index + count) (pos + 1)

/-- The shortest length of each length symbol and its extra bits. -/
def lengthRanges : List (Nat × Nat) := [
  (3, 0), (4, 0), (5, 0), (6, 0), (7, 0), (8, 0), (9, 0), (10, 0), (11, 1), (13, 1), (15, 1),
  (17, 1), (19, 2), (23, 2), (27, 2), (31, 2), (35, 3), (43, 3), (51, 3), (59, 3), (67, 4),
  (83, 4), (99, 4), (115, 4), (131, 5), (163, 5), (195, 5), (227, 5), (258, 0)]

/-- The shortest distance of each distance symbol and its extra bits. -/
def distanceRanges : List (Nat × Nat) := [
  (1, 0), (2, 0), (3, 0), (4, 0), (5, 1), (7, 1), (9, 2), (13, 2), (17, 3), (25, 3), (33, 4),
  (49, 4), (65, 5), (97, 5), (129, 6), (193, 6), (257, 7), (385, 7), (513, 8), (769, 8), (1025, 9),
  (1537, 9), (2049, 10), (3073, 10), (4097, 11), (6145, 11), (8193, 12), (12289, 12), (16385, 13),
  (24577, 13)]

/-- The value of a symbol that stands for a range, and the position behind its extra bits. -/
def ranged (ranges : List (Nat × Nat)) (data : ByteArray) (symbol pos : Nat) :
    Except Fault (Nat × Nat) :=
  match ranges[symbol]? with
  | none => .error .corrupt
  | some (least, extra) => do return (least + (← bits data extra pos), pos + extra)

/-- The byte that stands `distance` before the end. Before the first byte there are only zeros. -/
def before (out : ByteArray) (distance : Nat) : UInt8 :=
  if out.size < distance then 0 else out[out.size - distance]?.getD 0

/-- Repeats the last `distance` bytes until `length` bytes are added. -/
def copy (distance : Nat) : Nat → ByteArray → ByteArray
  | 0, out => out
  | length + 1, out => copy distance length (out.push (before out distance))

/-- The codes of a block: for literals and lengths, and for distances. -/
structure Codes where
  literals : Code
  distances : Code

/-- One symbol of a block: a literal byte, a repetition or the end of the block. Gives the output
so far, the next position and whether the block has ended. -/
def Codes.step (c : Codes) (data : ByteArray) (pos : Nat) (out : ByteArray) :
    Except Fault (ByteArray × Nat × Bool) := do
  let (symbol, pos) ← c.literals.symbol data pos
  if symbol < 256 then return (out.push (UInt8.ofNat symbol), pos, false)
  if symbol = 256 then return (out, pos, true)
  let (length, pos) ← ranged lengthRanges data (symbol - 257) pos
  let (symbol, pos) ← c.distances.symbol data pos
  let (distance, pos) ← ranged distanceRanges data symbol pos
  return (copy distance length out, pos, false)

/-- The output so far and the next position. -/
abbrev Progress := Except Fault (ByteArray × Nat)

/-- The symbols of a block. Each takes a bit, so the bits of the stream bound their number. -/
def Codes.symbols (c : Codes) (data : ByteArray) : (fuel pos : Nat) → ByteArray → Progress
  | 0, _, _ => .error .exhausted
  | fuel + 1, pos, out =>
    match c.step data pos out with
    | .error e => .error e
    | .ok (out, pos, true) => .ok (out, pos)
    | .ok (out, pos, false) => c.symbols data fuel pos out

/-- The codes every reader knows. -/
def fixedCodes : Codes where
  literals := Code.ofLengths (List.replicate 144 8 ++ List.replicate 112 9 ++
    List.replicate 24 7 ++ List.replicate 8 8)
  distances := Code.ofLengths (List.replicate 32 5)

/-- The order in which the lengths of the length code itself are written. -/
def lengthOrder : List Nat := [16, 17, 18, 0, 8, 7, 9, 6, 10, 5, 11, 4, 12, 3, 13, 2, 14, 1, 15]

/-- Code lengths in their own code, until there are `wanted`; latest first. -/
def codeLengths (code : Code) (data : ByteArray) (wanted : Nat) :
    (fuel pos : Nat) → List Nat → Except Fault (List Nat × Nat)
  | 0, _, _ => .error .corrupt
  | fuel + 1, pos, done =>
    if wanted ≤ done.length then
      if done.length = wanted then .ok (done, pos) else .error .corrupt
    else do
      let (symbol, pos) ← code.symbol data pos
      match symbol with
      | 16 =>
        match done with
        | [] => .error .corrupt
        | last :: _ =>
          let n ← bits data 2 pos
          codeLengths code data wanted fuel (pos + 2) (List.replicate (3 + n) last ++ done)
      | 17 =>
        let n ← bits data 3 pos
        codeLengths code data wanted fuel (pos + 3) (List.replicate (3 + n) 0 ++ done)
      | 18 =>
        let n ← bits data 7 pos
        codeLengths code data wanted fuel (pos + 7) (List.replicate (11 + n) 0 ++ done)
      | n => codeLengths code data wanted fuel pos (n :: done)

/-- The code for some lengths, which has to be complete unless it is `trivial` and that will do. -/
def codeOf (trivial : Bool) (lengths : List Nat) : Except Fault Code :=
  let code := Code.ofLengths lengths
  if code.isComplete || (trivial && code.isTrivial) then .ok code else .error .corrupt

/-- The codes written at the head of a block: at most 286 literals and lengths and at most 30
distances. -/
def writtenCodes (data : ByteArray) (pos : Nat) : Except Fault (Codes × Nat) := do
  let literals := 257 + (← bits data 5 pos)
  let distances := 1 + (← bits data 5 (pos + 5))
  let count := 4 + (← bits data 4 (pos + 10))
  if 286 < literals ∨ 30 < distances then .error .corrupt
  let pos := pos + 14
  let written ← (List.range count).mapM fun i => bits data 3 (pos + 3 * i)
  let pairs := lengthOrder.zip written
  let code ←
    codeOf false ((List.range 19).map fun s => ((pairs.find? (·.1 == s)).map (·.2)).getD 0)
  let (lengths, pos) ←
    codeLengths code data (literals + distances) (literals + distances + 1) (pos + 3 * count) []
  let lengths := lengths.reverse
  return (⟨← codeOf true (lengths.take literals), ← codeOf true (lengths.drop literals)⟩, pos)

/-- A block without codes: its length, the length's complement and the bytes. -/
def storedBlock (data : ByteArray) (pos : Nat) (out : ByteArray) : Progress :=
  let start := (pos + 7) / 8
  match number? data start 2, number? data (start + 2) 2 with
  | some length, some complement =>
    if length + complement ≠ 0xFFFF then .error .corrupt
    else
      let body := slice data (start + 4) length
      if body.size = length then .ok (out ++ body, 8 * (start + 4 + length))
      else .error .exhausted
  | _, _ => .error .exhausted

/-- One block behind its first bit. -/
def block (data : ByteArray) (pos : Nat) (out : ByteArray) : Progress := do
  match ← bits data 2 pos with
  | 0 => storedBlock data (pos + 2) out
  | 1 => fixedCodes.symbols data (8 * data.size) (pos + 2) out
  | 2 =>
    let (codes, pos) ← writtenCodes data (pos + 2)
    codes.symbols data (8 * data.size) pos out
  | _ => .error .corrupt

/-- Blocks up to the last one. Each takes three bits, so the bits of the stream bound their
number. -/
def blocks (data : ByteArray) : (fuel pos : Nat) → ByteArray → Progress
  | 0, _, _ => .error .exhausted
  | fuel + 1, pos, out => do
    let last ← bit data pos
    let (out, pos) ← block data (pos + 1) out
    if last = 1 then .ok (out, pos) else blocks data fuel pos out

end Deflate

/-- What a deflate stream unpacks to. -/
def inflate? (data : ByteArray) : Option ByteArray :=
  match Deflate.blocks data (8 * data.size) 0 .empty with
  | .ok (out, _) => some out
  | .error _ => none

end ModWeave.Bytes
