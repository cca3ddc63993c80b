/-! The operator's answers to a conflict. -/
namespace ModWeave

/-- Which side a conflict is settled for. The last two also settle every later conflict of a run. -/
inductive Choice where
  | keepBase
  | takeMod
  | keepAllBase
  | takeAllMod
deriving DecidableEq, Repr

namespace Choice

/-- All choices in the order they are offered. -/
def all : List Choice := [keepBase, takeMod, keepAllBase, takeAllMod]

/-- The choice offered under a number; numbers start at one. -/
def ofNumber? : Nat → Option Choice
  | 0 => none
  | n + 1 => all[n]?

/-- The number a choice is offered under. -/
def number : Choice → Nat
  | keepBase => 1
  | takeMod => 2
  | keepAllBase => 3
  | takeAllMod => 4

/-- Whether the choice holds for the rest of the run. -/
def appliesToAll : Choice → Bool
  | keepAllBase | takeAllMod => true
  | _ => false

/-- Whether the mod's side wins. -/
def takesMod : Choice → Bool
  | takeMod | takeAllMod => true
  | _ => false

def name : Choice → String
  | keepBase => "BASE_MOD"
  | takeMod => "MERGE_MOD"
  | keepAllBase => "USE_ALL_BASE"
  | takeAllMod => "USE_ALL_MERGE"

end Choice
end ModWeave
