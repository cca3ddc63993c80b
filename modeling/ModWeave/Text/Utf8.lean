/-! Text from bytes that should be UTF-8. -/
namespace ModWeave.Text

/-- What may follow the first byte of a character: a range for each byte. `none` for a byte that
starts no character. -/
def continuations? (b : UInt8) : Option (List (UInt8 × UInt8)) :=
  let any : UInt8 × UInt8 := (0x80, 0xBF)
  if b < 0x80 then some []
  else if 0xC2 ≤ b ∧ b ≤ 0xDF then some [any]
  else if b = 0xE0 then some [(0xA0, 0xBF), any]
  else if b = 0xED then some [(0x80, 0x9F), any]
  else if 0xE1 ≤ b ∧ b ≤ 0xEF then some [any, any]
  else if b = 0xF0 then some [(0x90, 0xBF), any, any]
  else if 0xF1 ≤ b ∧ b ≤ 0xF3 then some [any, any, any]
  else if b = 0xF4 then some [(0x80, 0x8F), any, any]
  else none

/-- The payload bits of a first byte that has `count` bytes behind it. -/
def leadBits (b : UInt8) : Nat → Nat
  | 0 => b.toNat
  | count + 1 => b.toNat % 1 <<< (5 - count)

/-- Reads continuation bytes while they fit; gives the code point if all do, and the rest. -/
def continue? : List (UInt8 × UInt8) → Nat → List UInt8 → Option Nat × List UInt8
  | [], code, rest => (some code, rest)
  | _ :: _, _, [] => (none, [])
  | (least, greatest) :: more, code, b :: rest =>
    if least ≤ b ∧ b ≤ greatest then continue? more (code * 64 + b.toNat % 64) rest
    else (none, b :: rest)

theorem length_continue? (more : List (UInt8 × UInt8)) (code : Nat) (bytes : List UInt8) :
    (continue? more code bytes).2.length ≤ bytes.length := by
  fun_induction continue? more code bytes with
  | case1 | case2 | case4 => exact Nat.le_refl _
  | case3 _ _ _ _ _ _ _ ih => exact Nat.le_succ_of_le ih

/-- The characters in some bytes. What cannot belong to a character is replaced: each longest run
that starts one by a single replacement character, and so each byte that starts none. -/
def ofBytesLossy : List UInt8 → List Char
  | [] => []
  | b :: rest =>
    match continuations? b with
    | none => '\uFFFD' :: ofBytesLossy rest
    | some more =>
      match h : continue? more (leadBits b more.length) rest with
      | (code?, rest') =>
        have : rest'.length ≤ rest.length := by
          have := length_continue? more (leadBits b more.length) rest
          rw [h] at this
          exact this
        (code?.map Char.ofNat).getD '\uFFFD' :: ofBytesLossy rest'
termination_by bytes => bytes.length

end ModWeave.Text
