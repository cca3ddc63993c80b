import ModWeave.Merge.Choice
import ModWeave.Text.LineDiff
import ModWeave.Tree.Node

/-! Conflicts: constructs that a mod changes or drops. -/
namespace ModWeave

/-- The names a conflict is reported under. -/
structure SourceNames where
  file : String
  base : String
  mod : String
deriving DecidableEq, Repr

/-- Where a change stands next to the unmodified game. -/
inductive ChangeStatus where
  /-- The mod alone departs from the game. -/
  | novel
  /-- The base side alone departs from the game. -/
  | redundant
  /-- Both sides do, or there is nothing to compare with. -/
  | conflicting
deriving DecidableEq, Repr

/-- A construct of the base that the mod has otherwise or, when `mod` is missing, has not. -/
structure Conflict where
  names : SourceNames
  signature : String
  /-- Signatures from the root down to the construct. -/
  path : List String
  base : Excerpt
  mod : Option Excerpt
  resolution : Option Choice

namespace Conflict

/-- Whether the mod drops the construct. -/
def isRemoval (c : Conflict) : Bool := c.mod.isNone

def typeName (c : Conflict) : String := if c.isRemoval then "REMOVAL" else "MODIFICATION"

def location (c : Conflict) : String := " > ".intercalate c.path

def isResolved (c : Conflict) : Bool := c.resolution.isSome

/-- Settles a conflict, whatever was chosen before. -/
def resolve (c : Conflict) (choice : Choice) : Conflict := { c with resolution := some choice }

/-- Compares both sides with the game's construct at the same path. A removal of something the game
does not have is redundant: the base side added it, and it stays. -/
def triage (c : Conflict) (vanilla : Option Tree) : ChangeStatus :=
  match vanilla.bind (·.excerpt? c.path), c.mod with
  | none, none => .redundant
  | none, some _ => .conflicting
  | some unmodified, none => if c.base.sameContent unmodified then .novel else .conflicting
  | some unmodified, some modded =>
    if c.base.sameContent unmodified then .novel
    else if modded.sameContent unmodified then .redundant
    else .conflicting

/-- The mod's construct as written, nothing for a removal. -/
def modText (c : Conflict) : List Char := (c.mod.map Excerpt.text).getD []

/-- All lines of both sides under their marks. A removal is set against nothing. -/
def unifiedDiff (c : Conflict) : List Char := Text.LineDiff.unified c.base.text c.modText

end Conflict
end ModWeave
