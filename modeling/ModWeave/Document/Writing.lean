import ModWeave.Document.Basic

/-!
Writing JSON, without any white space or with a line for each item and field. Characters below the
space are escaped, and besides them only the quote and the backslash.
-/
namespace ModWeave.Document

/-- A character as it stands in a string. -/
def escape (c : Char) : List Char :=
  if c = '"' then ['\\', '"']
  else if c = '\\' then ['\\', '\\']
  else if c = '\x08' then ['\\', 'b']
  else if c = '\x0c' then ['\\', 'f']
  else if c = '\n' then ['\\', 'n']
  else if c = '\r' then ['\\', 'r']
  else if c = '\t' then ['\\', 't']
  else if c.toNat < 0x20 then
    ['\\', 'u', '0', '0', Nat.digitChar (c.toNat / 16), Nat.digitChar (c.toNat % 16)]
  else [c]

/-- A string. One that spells no text is written as half of a pair. -/
def writeString : Spelled → List Char
  | some s => ['"'] ++ s.toList.flatMap escape ++ ['"']
  | none => ['"', '\\', 'u', 'd', '8', '0', '0', '"']

/-- What is no list and no record. -/
def writeAtom : Document → List Char
  | null => ['n', 'u', 'l', 'l']
  | bool true => ['t', 'r', 'u', 'e']
  | bool false => ['f', 'a', 'l', 's', 'e']
  | natural n => (toString n).toList
  | number lexeme => lexeme.toList
  | text s => writeString s
  | list _ => ['[', ']']
  | record _ => ['{', '}']

mutual

/-- A document without white space. -/
def compact : Document → List Char
  | list items => ['['] ++ compactItems items ++ [']']
  | record fields => ['{'] ++ compactFields fields ++ ['}']
  | d => writeAtom d

def compactItems : List Document → List Char
  | [] => []
  | [d] => compact d
  | d :: rest => compact d ++ [','] ++ compactItems rest

def compactFields : List (Spelled × Document) → List Char
  | [] => []
  | [(name, d)] => writeString name ++ [':'] ++ compact d
  | (name, d) :: rest => writeString name ++ [':'] ++ compact d ++ [','] ++ compactFields rest

end

/-- The start of a line, two spaces to a level. -/
def newLine (level : Nat) : List Char := '\n' :: List.replicate (2 * level) ' '

mutual

/-- A document whose items and fields have lines of their own, on the level below `level`. -/
def prettyAt (level : Nat) : Document → List Char
  | list [] => ['[', ']']
  | record [] => ['{', '}']
  | list items => ['['] ++ prettyItems (level + 1) items ++ newLine level ++ [']']
  | record fields => ['{'] ++ prettyFields (level + 1) fields ++ newLine level ++ ['}']
  | d => writeAtom d

def prettyItems (level : Nat) : List Document → List Char
  | [] => []
  | [d] => newLine level ++ prettyAt level d
  | d :: rest => newLine level ++ prettyAt level d ++ [','] ++ prettyItems level rest

def prettyFields (level : Nat) : List (Spelled × Document) → List Char
  | [] => []
  | [(name, d)] => newLine level ++ writeString name ++ [':', ' '] ++ prettyAt level d
  | (name, d) :: rest =>
    newLine level ++ writeString name ++ [':', ' '] ++ prettyAt level d ++ [','] ++
      prettyFields level rest

end

/-- A document with a line for each item and field. -/
def pretty (d : Document) : List Char := prettyAt 0 d

end ModWeave.Document
