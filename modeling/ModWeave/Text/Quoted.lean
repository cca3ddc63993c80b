import ModWeave.Text.Printable

/-! Characters and texts in quotes, with everything that has no visible shape of its own escaped. -/
namespace ModWeave.Text

/-- The code point in lower-case hexadecimal, in braces. -/
def codePointEscape (c : Char) : List Char :=
  ['\\', 'u', '{'] ++ Nat.toDigits 16 c.toNat ++ ['}']

/-- One character as it stands between `quote`s. The other kind of quote needs no escape. -/
def escape (quote c : Char) : List Char :=
  if c = '\x00' then ['\\', '0']
  else if c = '\t' then ['\\', 't']
  else if c = '\r' then ['\\', 'r']
  else if c = '\n' then ['\\', 'n']
  else if c = '\\' || c = quote then ['\\', c]
  else if isExtender c || !isPrintable c then codePointEscape c
  else [c]

/-- A character in single quotes. -/
def quoteChar (c : Char) : String := String.ofList (['\''] ++ escape '\'' c ++ ['\''])

/-- A text in double quotes. -/
def quote (s : String) : String := String.ofList (['"'] ++ s.toList.flatMap (escape '"') ++ ['"'])

end ModWeave.Text
