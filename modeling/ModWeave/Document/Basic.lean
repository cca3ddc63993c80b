/-!
JSON documents. A string may spell half of a surrogate pair, which no text holds; such a string is
told apart from all texts, and so is a number that is no natural one.
-/
namespace ModWeave

/-- The text that a string in a document spells, if it spells one. -/
abbrev Spelled := Option String

inductive Document where
  | null
  | bool (b : Bool)
  | natural (n : Nat)
  /-- Any other number, as it is written. -/
  | number (lexeme : String)
  | text (s : Spelled)
  | list (items : List Document)
  | record (fields : List (Spelled × Document))
deriving Inhabited

namespace Document

/-- A string that spells a text. -/
def ofString (s : String) : Document := text (some s)

/-- A record whose names are texts. -/
def ofFields (fields : List (String × Document)) : Document :=
  record (fields.map fun (name, d) => (some name, d))

/-- A string, or null. -/
def ofString? : Option String → Document
  | some s => ofString s
  | none => null

/-- A natural number, or null. -/
def ofNat? : Option Nat → Document
  | some n => natural n
  | none => null

def ofStrings (xs : List String) : Document := list (xs.map ofString)

end Document
end ModWeave
