/-! What is left of a list that is read from its front. A reader that leaves over a shorter list than it
was given can be repeated, and comes to an end. Of readers one behind the other each counts from the
list that the first was given. -/
namespace ModWeave

variable {τ : Type}

/-- What is left of `ts` after at least one element. -/
abbrev Rest (ts : List τ) := { r : List τ // r.length < ts.length }

/-- What is left of `ts` after any number of elements. -/
abbrev Remainder (ts : List τ) := { r : List τ // r.length ≤ ts.length }

/-- A value read from at least one element, and what is left. -/
structure Parsed (α : Type) (ts : List τ) where
  value : α
  rest : List τ
  shorter : rest.length < ts.length

theorem tail_shorter (t : τ) (r : List τ) : r.length < (t :: r).length := Nat.lt_succ_self _

theorem self_atMost (ts : List τ) : ts.length ≤ ts.length := Nat.le_refl _

variable {ts r : List τ}

/-- A rest of what is left after at least one element. -/
def Rest.afterSome (a : Rest r) (h : r.length < ts.length) : Rest ts :=
  ⟨a.val, Nat.lt_trans a.property h⟩

/-- A rest of what is left after any number of elements. -/
def Rest.afterAny (a : Rest r) (h : r.length ≤ ts.length) : Rest ts :=
  ⟨a.val, Nat.lt_of_lt_of_le a.property h⟩

def Rest.toRemainder (a : Rest ts) : Remainder ts := ⟨a.val, Nat.le_of_lt a.property⟩

def Remainder.afterSome (a : Remainder r) (h : r.length < ts.length) : Rest ts :=
  ⟨a.val, Nat.lt_of_le_of_lt a.property h⟩

def Remainder.afterAny (a : Remainder r) (h : r.length ≤ ts.length) : Remainder ts :=
  ⟨a.val, Nat.le_trans a.property h⟩

def Parsed.afterSome {α : Type} (a : Parsed α r) (h : r.length < ts.length) : Parsed α ts :=
  ⟨a.value, a.rest, Nat.lt_trans a.shorter h⟩

def Parsed.afterAny {α : Type} (a : Parsed α r) (h : r.length ≤ ts.length) : Parsed α ts :=
  ⟨a.value, a.rest, Nat.lt_of_lt_of_le a.shorter h⟩

/-- What is left after a value. -/
def Parsed.toRest {α : Type} (a : Parsed α ts) : Rest ts := ⟨a.rest, a.shorter⟩

/-- Another value with the same rest. -/
def Parsed.map {α β : Type} (f : α → β) (a : Parsed α ts) : Parsed β ts :=
  ⟨f a.value, a.rest, a.shorter⟩

/-- Passes the leading elements that satisfy `p`. -/
def skipWhile (p : τ → Bool) (ts : List τ) : Remainder ts :=
  ⟨ts.dropWhile p, (List.dropWhile_suffix p).length_le⟩

end ModWeave
