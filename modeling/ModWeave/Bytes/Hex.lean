/-! Bytes as lower-case hexadecimal digits, two to a byte. -/
namespace ModWeave.Bytes

/-- The digit for a number below sixteen. -/
def hexDigit (n : Nat) : Char := Nat.digitChar n

def hex (data : ByteArray) : String :=
  String.ofList (data.toList.flatMap fun b => [hexDigit (b.toNat / 16), hexDigit (b.toNat % 16)])

end ModWeave.Bytes
