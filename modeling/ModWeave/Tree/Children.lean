/-! Children of one node: a list in order of insertion, and an index from signatures to positions. -/
namespace ModWeave

/-- Things kept under a signature. -/
class Signed (α : Type) where
  signature : α → String
  /-- The same thing under another signature. -/
  resign : String → α → α


/-- Things in order of insertion, with the position of each signature. -/
structure ChildMap (α : Type) where
  nodes : List α
  index : List (String × Nat)
deriving Repr

namespace ChildMap

variable {α : Type}

/-- No children. -/
def empty : ChildMap α := ⟨[], []⟩

instance : Inhabited (ChildMap α) := ⟨empty⟩

def size (m : ChildMap α) : Nat := m.nodes.length

def isEmpty (m : ChildMap α) : Bool := m.nodes.isEmpty

/-- Where the child of this signature stands. -/
def position? (m : ChildMap α) (sig : String) : Option Nat := m.index.lookup sig

def contains (m : ChildMap α) (sig : String) : Bool := (m.position? sig).isSome

/-- The child of this signature. -/
def get? (m : ChildMap α) (sig : String) : Option α := (m.position? sig).bind (m.nodes[·]?)

/-- The child at a position. -/
def at? (m : ChildMap α) (i : Nat) : Option α := m.nodes[i]?

variable [Signed α]

/-- Signatures in order. -/
def signatures (m : ChildMap α) : List String := m.nodes.map Signed.signature

/-- Puts a child under its signature. A child that is there already gives up its place to the new one
and is handed back. -/
def insert (m : ChildMap α) (node : α) : Option α × ChildMap α :=
  match m.position? (Signed.signature node) with
  | some i => (m.nodes[i]?, { m with nodes := m.nodes.set i node })
  | none => (none, ⟨m.nodes ++ [node], m.index ++ [(Signed.signature node, m.nodes.length)]⟩)

/-- Moves the child under one signature to another, in its place. Refused when nothing is there to
move or the other signature is taken. -/
def rekey (m : ChildMap α) (source target : String) : Option (ChildMap α) :=
  if m.contains target then none
  else match m.position? source with
    | none => none
    | some i =>
      some ⟨m.nodes.modify i (Signed.resign target),
        m.index.filter (fun entry => entry.1 != source) ++ [(target, i)]⟩

/-- Number of children whose signature starts with `start`. -/
def countPrefixed (m : ChildMap α) (start : String) : Nat :=
  (m.nodes.filter fun n => start.toList.isPrefixOf (Signed.signature n).toList).length

/-- The first of `key#n`, `key#(n + 1)`, … that is free, looking at `tries` of them. An ordinal
has 32 bits where it is counted by a machine. No text has siblings enough to use these up, so ordinals are not
bounded here. -/
def freeOrdinal (m : ChildMap α) (key : String) (n : Nat) : Nat → String
  | 0 => s!"{key}#{n}"
  | tries + 1 =>
    if m.contains s!"{key}#{n}" then freeOrdinal m key (n + 1) tries else s!"{key}#{n}"

/-- The key itself when it is free, else the key with the least free ordinal from one. Among as many
ordinals as there are children one is free, because the key takes up a child itself. -/
def freeKey (m : ChildMap α) (key : String) : String :=
  if m.contains key then m.freeOrdinal key 1 m.size else key

end ChildMap
end ModWeave
