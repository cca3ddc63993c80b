/-!
Arguments of a command line. A word with two dashes names an option, which may have its value behind
an equals sign or in the next word; a word with one dash is a row of letters, each an option; behind a
lone pair of dashes every word stands for itself. Words are read in order, and the first thing wrong
or the first call for help ends the reading.
-/
namespace ModWeave.Cli

/-- What an option can be given. -/
inductive Operand where
  | nothing
  /-- A path, which has to have a name. -/
  | path
  | oneOf (names : List String)
deriving DecidableEq, Repr

def Operand.allows : Operand → String → Bool
  | nothing, value => value == ""
  | path, value => value != ""
  | oneOf names, value => names.contains value

/-- An option. -/
structure Switch where
  name : String
  letter? : Option Char
  operand : Operand
deriving DecidableEq, Repr

/-- What can be written behind a command's name, or before it. -/
structure Grammar where
  /-- The command that help is given on; none for the program. -/
  topic? : Option String
  switches : List Switch
  /-- How many words can stand for themselves. -/
  most? : Option Nat
  /-- Whether the first word that stands for itself ends the reading. -/
  stops : Bool
deriving DecidableEq, Repr

/-- Why no command is carried out. -/
inductive Refusal where
  /-- Help was asked for, on a command or on the program, in its long form or not. -/
  | help (topic? : Option String) (long : Bool)
  | usage
deriving DecidableEq, Repr

/-- A word, told by its looks. -/
inductive Word where
  | dashes
  | option (name : String) (value? : Option String)
  | letters (cs : List Char)
  | plain (text : String)
deriving DecidableEq, Repr

def Word.ofText (text : String) : Word :=
  match text.toList with
  | ['-', '-'] => dashes
  | '-' :: '-' :: name =>
    let value? := match name.dropWhile (· ≠ '=') with
      | _ :: value => some (String.ofList value)
      | [] => none
    option (String.ofList (name.takeWhile (· ≠ '='))) value?
  | '-' :: c :: cs => letters (c :: cs)
  | _ => plain text

/-- What the words read so far give. -/
structure Given where
  /-- Names of options with their values. One without a value has an empty one. -/
  options : List (String × String)
  /-- Words that stand for themselves, in order. -/
  plain : List String
deriving DecidableEq, Repr

namespace Given

def none : Given := ⟨[], []⟩

/-- The value of an option. -/
def value? (g : Given) (name : String) : Option String := g.options.lookup name

def has (g : Given) (name : String) : Bool := (g.value? name).isSome

/-- Takes an option over, once, with a value that it allows. -/
def addOption (g : Given) (s : Switch) (value : String) : Except Refusal Given :=
  if g.has s.name || !s.operand.allows value then .error .usage
  else .ok { g with options := (s.name, value) :: g.options }

/-- Takes over an option that was left open until the word behind it was known. -/
def settle (g : Given) (open? : Option (Switch × String)) : Except Refusal Given :=
  match open? with
  | some (s, value) => g.addOption s value
  | Option.none => .ok g

end Given

namespace Grammar

/-- Takes over a word that stands for itself. It has to have a letter. -/
def addPlain (G : Grammar) (g : Given) (word : String) : Except Refusal Given :=
  if word = "" ∨ G.most?.any (· ≤ g.plain.length) then .error .usage
  else .ok { g with plain := g.plain ++ [word] }

/-- Reads a row of letters, none of which may take a value. -/
def readLetters (G : Grammar) : List Char → Given → Except Refusal Given
  | [], g => .ok g
  | c :: rest, g =>
    if c = 'h' then .error (.help G.topic? false)
    else
      match G.switches.find? (·.letter? = some c) with
      | some s =>
        if s.operand = .nothing then do readLetters G rest (← g.addOption s "") else .error .usage
      | none => .error .usage

end Grammar

/-- Where reading came to. -/
structure Reading where
  given : Given
  /-- The last option, if its value is the last word read. -/
  open? : Option (Switch × String)
  /-- The words left, from the first that stands for itself on. -/
  rest : List String
deriving DecidableEq, Repr

/-- Reads words in order. An option with its value in the next word is left open until another word
is read, so that help on a command is given whatever the option before its name is given. -/
def Grammar.readWords (G : Grammar) :
    List String → Given → Option (Switch × String) → Except Refusal Reading
  | [], g, open? => .ok ⟨g, open?, []⟩
  | word :: rest, g, open? =>
    match Word.ofText word with
    | .plain text =>
      if G.stops then .ok ⟨g, open?, text :: rest⟩
      else do G.readWords rest (← G.addPlain (← g.settle open?) text) none
    | .dashes =>
      if G.stops then .error .usage
      else do return ⟨← rest.foldlM G.addPlain (← g.settle open?), none, []⟩
    | .letters cs => do G.readWords rest (← G.readLetters cs (← g.settle open?)) none
    | .option "help" none => do
      let _ ← g.settle open?
      .error (.help G.topic? true)
    | .option name value? => do
      let g ← g.settle open?
      match G.switches.find? (·.name = name), value? with
      | none, _ => .error .usage
      | some s, some value =>
        if s.operand = .nothing then .error .usage
        else G.readWords rest (← g.addOption s value) none
      | some s, none =>
        if s.operand = .nothing then G.readWords rest (← g.addOption s "") none
        else
          match rest with
          | [] => .error .usage
          | value :: rest =>
            match Word.ofText value with
            | .plain value => G.readWords rest g (some (s, value))
            | _ => .error .usage

/-- What some words give, all of them read. -/
def Grammar.read (G : Grammar) (words : List String) : Except Refusal Given := do
  let r ← G.readWords words .none none
  r.given.settle r.open?

end ModWeave.Cli
