import ModWeave.Document.Basic

/-!
Values from documents. A structure is written as a record, in which unknown names are passed over, or
as a list of its fields in their order, which may end early.
-/
namespace ModWeave.Document

def toBool? : Document → Option Bool
  | bool b => some b
  | _ => none

/-- A natural number that takes at most 64 bits. -/
def toWord? : Document → Option Nat
  | natural n => if n < UInt64.size then some n else none
  | _ => none

def toString? : Document → Option String
  | text s => s
  | _ => none

def toStrings? : Document → Option (List String)
  | list items => items.mapM toString?
  | _ => none

/-- Null for nothing. -/
def toOption? {α : Type} (decode : Document → Option α) : Document → Option (Option α)
  | null => some none
  | d => (decode d).map some

/-- What stands under a name: nothing, or one document. Fails when there are more. -/
def unique? (fields : List (String × Document)) (name : String) : Option (Option Document) :=
  match fields.filter (·.1 = name) with
  | [] => some none
  | [(_, d)] => some (some d)
  | _ => none

/-- The names of a record with what stands under them. Each name has to spell a text. -/
def named? (fields : List (Spelled × Document)) : Option (List (String × Document)) :=
  fields.mapM fun (name, d) => name.map fun s => (s, d)

/-- The fields of a structure, in the order of their names. -/
def structure? (names : List String) : Document → Option (List (Option Document))
  | record fields => do
    let fields ← named? fields
    names.mapM (unique? fields)
  | list items =>
    if items.length ≤ names.length then
      some (items.map some ++ List.replicate (names.length - items.length) none)
    else none
  | _ => none

/-- A field that may be missing. -/
def orElse? {α : Type} (field : Option Document) (missing : α) (decode : Document → Option α) :
    Option α :=
  match field with
  | some d => decode d
  | none => some missing

/-- One of some names: as a string, or as the only field of a record with null under it. -/
def choice? {α : Type} (names : List (String × α)) : Document → Option α
  | text (some s) => names.lookup s
  | record [(some s, null)] => names.lookup s
  | _ => none

/-- A map from texts to texts. Of several fields of one name the last one counts. -/
def toTexts? : Document → Option (List (String × String))
  | record fields => do
    let fields ← named? fields
    fields.mapM fun (name, d) => (toString? d).map fun s => (name, s)
  | _ => none

end ModWeave.Document
