/-!
A cache of computed values that holds few of them and none for long. A key gets a slot when its value
is first asked for; the slot keeps its age even when the computation fails and is tried again.
-/
namespace ModWeave

/-- A key, when it got its slot, and its value once there is one. -/
structure Slot (α : Type) where
  key : String
  created : Nat
  value : Option α
deriving DecidableEq, Repr

/-- Slots in the order of their age, oldest first, no two of one key. -/
structure RecentCache (α : Type) where
  slots : List (Slot α)
  /-- The number of slots is kept at or below this. -/
  capacity : Nat
  /-- How old a slot may get. -/
  lifetime : Nat
deriving DecidableEq, Repr

namespace RecentCache

variable {α ε : Type}

/-- An empty cache. It has room for one slot at least. -/
def new (capacity lifetime : Nat) : RecentCache α := ⟨[], max 1 capacity, lifetime⟩

def size (c : RecentCache α) : Nat := c.slots.length

def isEmpty (c : RecentCache α) : Bool := c.slots.isEmpty

/-- Whether a slot is still good at some time. -/
def isFresh (c : RecentCache α) (now : Nat) (s : Slot α) : Bool := now - s.created ≤ c.lifetime

/-- The slot of a key, unless it is too old. -/
def slot? (c : RecentCache α) (now : Nat) (key : String) : Option (Slot α) :=
  (c.slots.find? (·.key = key)).filter (c.isFresh now)

/-- The value of a key, if it is there and not too old. -/
def get? (c : RecentCache α) (now : Nat) (key : String) : Option α :=
  (c.slot? now key).bind (·.value)

/-- Drops the slot of a key. -/
def invalidate (c : RecentCache α) (key : String) : RecentCache α :=
  { c with slots := c.slots.filter (·.key ≠ key) }

/-- Drops what is too old, then the oldest slots until there is room for another. -/
def makeRoom (c : RecentCache α) (now : Nat) : RecentCache α :=
  let fresh := c.slots.filter (c.isFresh now)
  { c with slots := fresh.drop (fresh.length + 1 - c.capacity) }

/-- Gives a key a slot, unless it has one that is good. -/
def reserve (c : RecentCache α) (now : Nat) (key : String) : RecentCache α :=
  if (c.slot? now key).isSome then c
  else
    let c := c.makeRoom now
    { c with slots := c.slots ++ [⟨key, now, none⟩] }

/-- Fills the slot of a key. -/
def fill (c : RecentCache α) (key : String) (value : α) : RecentCache α :=
  { c with slots := c.slots.map fun s => if s.key = key then { s with value := some value } else s }

/-- The value of a key; computes it unless it is there. Nothing is kept of a failure but the slot. -/
def getOrCompute (c : RecentCache α) (now : Nat) (key : String) (compute : Except ε α) :
    Except ε α × RecentCache α :=
  match c.get? now key with
  | some value => (.ok value, c)
  | none =>
    let c := c.reserve now key
    match compute with
    | .ok value => (.ok value, c.fill key value)
    | .error e => (.error e, c)

end RecentCache
end ModWeave
