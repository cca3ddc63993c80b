import ModWeave.Run.Notice

/-!
Dialogues: work that tells the operator things, asks about conflicts and reads the clock on its way to
a value. What the operator will answer and what the clock will show is left open, so a statement about
a dialogue is one about all operators and clocks.
-/
namespace ModWeave

/-- The operator's answer to a conflict. -/
inductive Answer where
  | choose (choice : Choice)
  /-- No choice could be had. -/
  | refuse (reason : String)
  | abort
deriving DecidableEq, Repr

inductive Dialogue (α : Type) where
  | done (a : α)
  | tell (n : Notice) (rest : Dialogue α)
  | ask (c : Conflict) (next : Answer → Dialogue α)
  /-- Asks for the time, in milliseconds since the start of 1970. -/
  | clock (next : Nat → Dialogue α)

/-- What passes in a dialogue. -/
inductive Event where
  | told (n : Notice)
  | asked (c : Conflict) (answer : Answer)

/-- An operator: answers a conflict, knowing all that passed before, latest first. -/
abbrev Operator := List Event → Conflict → Answer

namespace Dialogue

variable {α β : Type}

def bind (d : Dialogue α) (f : α → Dialogue β) : Dialogue β :=
  match d with
  | done a => f a
  | tell n rest => tell n (rest.bind f)
  | ask c next => ask c fun answer => (next answer).bind f
  | clock next => clock fun time => (next time).bind f

instance : Monad Dialogue where
  pure := done
  bind := bind

theorem bind_done (d : Dialogue α) : d.bind done = d := by
  induction d with
  | done a => rfl
  | tell n rest ih => simp only [bind, ih]
  | ask c next ih => simp only [bind, ih]
  | clock next ih => simp only [bind, ih]

theorem bind_assoc {γ : Type} (d : Dialogue α) (f : α → Dialogue β) (g : β → Dialogue γ) :
    (d.bind f).bind g = d.bind fun a => (f a).bind g := by
  induction d with
  | done a => rfl
  | tell n rest ih => simp only [bind, ih]
  | ask c next ih => simp only [bind, ih]
  | clock next ih => simp only [bind, ih]

instance : LawfulMonad Dialogue :=
  LawfulMonad.mk' Dialogue bind_done (fun _ _ => rfl) bind_assoc

/-- How a dialogue with an operator ends, and all that passed until then, latest first. The clock
stands at `time`. -/
def hold (operator : Operator) (time : Nat) (past : List Event) : Dialogue α → α × List Event
  | done a => (a, past)
  | tell n rest => rest.hold operator time (.told n :: past)
  | ask c next =>
    let answer := operator past c
    (next answer).hold operator time (.asked c answer :: past)
  | clock next => (next time).hold operator time past

/-- A dialogue held in two parts. -/
theorem hold_bind (operator : Operator) (time : Nat) (d : Dialogue α) (f : α → Dialogue β)
    (past : List Event) :
    (d.bind f).hold operator time past =
      (f (d.hold operator time past).1).hold operator time (d.hold operator time past).2 := by
  induction d generalizing past with
  | done a => rfl
  | tell n rest ih => exact ih _
  | ask c next ih => exact ih _ _
  | clock next ih => exact ih _ _

/-- The dialogue in which every conflict is settled by one choice, without asking. -/
def decided (choice : Choice) : Dialogue α → Dialogue α
  | done a => done a
  | tell n rest => tell n (rest.decided choice)
  | ask _ next => (next (.choose choice)).decided choice
  | clock next => clock fun time => (next time).decided choice

end Dialogue
end ModWeave
