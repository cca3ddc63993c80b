import ModWeave.Run.MergeFile

/-!
How work ends. Held with an operator, work on a run comes from one moment to another and to a result; what
it did before it failed stays. A statement about all operators and all moments is one about all runs.
-/
namespace ModWeave

/-- A moment of a run: what it has so far, and all that passed with the operator, latest first. -/
structure Moment where
  progress : Progress
  past : List Event

/-- Held with the operator from a moment on, the work gives a result and comes to another moment. -/
def Ends {ε α : Type} (operator : Operator) (time : Nat) (x : ExceptT ε (StateT Progress Dialogue) α)
    (t : Moment) (r : Except ε α) (t' : Moment) : Prop :=
  (x.run.run t.progress).hold operator time t.past = ((r, t'.progress), t'.past)

section Ends

variable {ε α β : Type} {operator : Operator} {time : Nat} {x : ExceptT ε (StateT Progress Dialogue) α}
  {f : α → ExceptT ε (StateT Progress Dialogue) β} {t t₁ t' : Moment} {r : Except ε β}

/-- All work ends. -/
theorem exists_ends (operator : Operator) (time : Nat) (x : ExceptT ε (StateT Progress Dialogue) α)
    (t : Moment) : ∃ r t', Ends operator time x t r t' := ⟨_, ⟨_, _⟩, rfl⟩

theorem Ends.unique {q r : Except ε α} (h : Ends operator time x t q t₁) (h' : Ends operator time x t r t') :
    q = r ∧ t₁ = t' := by
  have heq := h.symm.trans h'
  obtain ⟨progress, past⟩ := t₁
  simp only [Prod.mk.injEq] at heq
  obtain ⟨⟨rfl, rfl⟩, rfl⟩ := heq
  exact ⟨rfl, rfl⟩

/-- Work in two parts ends in the second, or with a failure of the first. -/
theorem Ends.bind_cases (h : Ends operator time (x >>= f) t r t') :
    (∃ e, Ends operator time x t (.error e) t' ∧ r = .error e) ∨
      ∃ a t₁, Ends operator time x t (.ok a) t₁ ∧ Ends operator time (f a) t₁ r t' := by
  have hbind : (x >>= f).run.run t.progress = (x.run.run t.progress).bind fun
      | (.ok a, s) => (f a).run.run s
      | (.error e, s) => .done (.error e, s) := by
    rw [ExceptT.run_bind, StateT.run_bind]
    refine congrArg _ (funext fun (q, s) => ?_)
    cases q <;> rfl
  obtain ⟨q, t₁, hx⟩ := exists_ends operator time x t
  rw [Ends, hbind, Dialogue.hold_bind, show _ = _ from hx] at h
  cases q with
  | ok a => exact .inr ⟨a, t₁, hx, h⟩
  | error e =>
    obtain ⟨hr, hpast⟩ := Prod.mk.inj h
    obtain ⟨rfl, hprogress⟩ := Prod.mk.inj hr
    obtain ⟨progress, past⟩ := t'
    obtain rfl : t₁.progress = progress := hprogress
    obtain rfl : t₁.past = past := hpast
    exact .inl ⟨e, hx, rfl⟩

theorem ends_pure_iff {a : α} {r : Except ε α} :
    Ends operator time (pure a) t r t' ↔ r = .ok a ∧ t' = t := by
  obtain ⟨progress, past⟩ := t'
  obtain ⟨progress₁, past₁⟩ := t
  exact ⟨fun h => by cases h; exact ⟨rfl, rfl⟩, by rintro ⟨rfl, h⟩; cases h; rfl⟩

theorem ends_throw_iff {e : ε} {r : Except ε α} :
    Ends operator time (throw e) t r t' ↔ r = .error e ∧ t' = t := by
  obtain ⟨progress, past⟩ := t'
  obtain ⟨progress₁, past₁⟩ := t
  exact ⟨fun h => by cases h; exact ⟨rfl, rfl⟩, by rintro ⟨rfl, h⟩; cases h; rfl⟩

/-- Work that cannot fail. -/
theorem Ends.lift_cases {y : StateT Progress Dialogue α} {r : Except ε α}
    (h : Ends operator time (liftM y) t r t') :
    ∃ a, r = .ok a ∧ (y.run t.progress).hold operator time t.past = ((a, t'.progress), t'.past) := by
  have hlift : (liftM y : ExceptT ε (StateT Progress Dialogue) α).run.run t.progress =
      (y.run t.progress).bind fun p => .done (.ok p.1, p.2) := rfl
  rw [Ends, hlift, Dialogue.hold_bind] at h
  obtain ⟨hr, hpast⟩ := Prod.mk.inj h
  obtain ⟨rfl, hprogress⟩ := Prod.mk.inj hr
  exact ⟨_, rfl, Prod.ext (Prod.ext rfl hprogress) hpast⟩

/-- What the run has is at hand. -/
theorem ends_get_iff {f : Progress → ExceptT ε (StateT Progress Dialogue) β} :
    Ends operator time (get >>= f) t r t' ↔ Ends operator time (f t.progress) t r t' := Iff.rfl

theorem ends_modify_iff {g : Progress → Progress} {f : Unit → ExceptT ε (StateT Progress Dialogue) β} :
    Ends operator time (modify g >>= f) t r t' ↔
      Ends operator time (f ()) ⟨g t.progress, t.past⟩ r t' := Iff.rfl

end Ends

section FileWork

variable {α β : Type} {operator : Operator} {time : Nat} {f : Unit → FileWork β} {t t' : Moment}
  {r : Except FileFailure β}

theorem ends_tell_iff {n : Notice} : Ends operator time (FileWork.tell n >>= f) t r t' ↔
    Ends operator time (f ()) ⟨t.progress, .told n :: t.past⟩ r t' := Iff.rfl

/-- The operator answers by what passed until then. -/
theorem ends_ask_iff {c : Conflict} {f : Answer → FileWork β} :
    Ends operator time (FileWork.ask c >>= f) t r t' ↔ Ends operator time (f (operator t.past c))
      ⟨t.progress, .asked c (operator t.past c) :: t.past⟩ r t' := Iff.rfl

theorem Ends.orIo_cases {a? : Option α} {f : α → FileWork β}
    (h : Ends operator time (FileWork.orIo a? >>= f) t r t') :
    (a? = none ∧ r = .error .io ∧ t' = t) ∨ ∃ a, a? = some a ∧ Ends operator time (f a) t r t' := by
  cases a? with
  | none => exact .inl ⟨rfl, ends_throw_iff.1 h⟩
  | some a => exact .inr ⟨a, rfl, h⟩

/-- The disk changes as it is to change, or refuses and stays as it was. -/
theorem Ends.change_cases {g : Disk → Option Disk} {r : Except FileFailure Unit}
    (h : Ends operator time (FileWork.change g) t r t') :
    (r = .error .io ∧ t' = t) ∨
      ∃ d, g t.progress.disk = some d ∧ r = .ok () ∧ t' = ⟨{ t.progress with disk := d }, t.past⟩ := by
  obtain ⟨-, h⟩ | ⟨d, hd, h⟩ := (ends_get_iff.1 h).orIo_cases
  · exact .inl h
  · exact .inr ⟨d, hd, ends_pure_iff.1 h⟩

end FileWork

end ModWeave
