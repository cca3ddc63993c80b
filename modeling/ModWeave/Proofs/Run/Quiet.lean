import ModWeave.Run.MergeFile

/-! Work that asks nothing and reads no clock. It tells the operator some things, in order, and how it ends
and what it leaves is told by where it starts. -/
namespace ModWeave

namespace Dialogue

variable {α β : Type}

/-- Tells some things, in order, and is done. -/
def telling (ns : List Notice) (a : α) : Dialogue α := ns.foldr tell (done a)

theorem bind_telling {ns ms : List Notice} {a : α} {b : β} {f : α → Dialogue β}
    (h : f a = telling ms b) : (telling ns a).bind f = telling (ns ++ ms) b := by
  induction ns with
  | nil => exact h
  | cons n ns ih => exact congrArg (tell n) ih

end Dialogue

namespace FileWork

variable {α β : Type} {s s' s'' : Progress} {ns ms : List Notice}

/-- The work asks nothing. From `s` it tells these things, ends so and leaves `s'`. -/
def Quiet (x : FileWork α) (s : Progress) (ns : List Notice) (r : Except FileFailure α)
    (s' : Progress) : Prop :=
  x.run.run s = .telling ns (r, s')

namespace Quiet

theorem ret (a : α) (s : Progress) : Quiet (pure a) s [] (.ok a) s := rfl

theorem tell (n : Notice) (s : Progress) : Quiet (FileWork.tell n) s [n] (.ok ()) s := rfl

theorem bind {x : FileWork α} {f : α → FileWork β} {a : α} {r : Except FileFailure β}
    (h : Quiet x s ns (.ok a) s') (h' : Quiet (f a) s' ms r s'') :
    Quiet (x >>= f) s (ns ++ ms) r s'' := by
  rw [Quiet, ExceptT.run_bind, StateT.run_bind]
  change (x.run.run s).bind _ = _
  rw [h]
  exact Dialogue.bind_telling h'

/-- A failure ends the work. -/
theorem fail {x : FileWork α} {f : α → FileWork β} {e : FileFailure} (h : Quiet x s ns (.error e) s') :
    Quiet (x >>= f) s ns (.error e) s' := by
  rw [Quiet, ExceptT.run_bind, StateT.run_bind]
  change (x.run.run s).bind _ = _
  rw [h]
  refine (Dialogue.bind_telling (?_ : _ = Dialogue.telling [] (.error e, s'))).trans ?_
  · rfl
  · rw [List.append_nil]

/-- Work behind work that tells nothing. -/
theorem after {x : FileWork α} {f : α → FileWork β} {a : α} {r : Except FileFailure β}
    (h : Quiet x s [] (.ok a) s') (h' : Quiet (f a) s' ns r s'') : Quiet (x >>= f) s ns r s'' :=
  bind h h'

/-- What the state holds is at hand. -/
theorem read {f : Progress → FileWork β} {r : Except FileFailure β} (h : Quiet (f s) s ns r s') :
    Quiet (get >>= f) s ns r s' := after rfl h

theorem update {f : Progress → Progress} {g : Unit → FileWork β} {r : Except FileFailure β}
    (h : Quiet (g ()) (f s) ns r s') : Quiet (modify f >>= g) s ns r s' := after rfl h

/-- A change of the disk is made, or the disk refuses. -/
theorem change (f : Disk → Option Disk) (s : Progress) : Quiet (FileWork.change f) s []
    (if (f s.disk).isSome then .ok () else .error .io)
    { s with disk := (f s.disk).getD s.disk } := by
  refine read ?_
  cases hd : f s.disk with
  | none => exact fail (x := orIo none) rfl
  | some d => exact after (x := orIo (some d)) rfl rfl

end Quiet
end FileWork

namespace FileMerger

open FileWork

/-- Putting a file in its place asks nothing. A file that the disk takes is there afterwards. -/
theorem quiet_put (m : FileMerger) (file : String) (write? : Disk → Path → Option Disk) (s : Progress) :
    ∃ r s', Quiet (m.put file write?) s [] r s' ∧
      ∀ d, (m.target file).any Path.hasZero = false → write? s.disk (m.target file) = some d →
        r = .ok () ∧ s' = { s with disk := d } := by
  unfold put
  split
  · rename_i hzero
    exact ⟨_, s, rfl, fun d hname => by rw [hname] at hzero; cases hzero⟩
  · refine ⟨_, _, .change _ s, fun d _ hd => ?_⟩
    rw [hd]
    exact ⟨rfl, rfl⟩

end FileMerger

/-- Conflicts that settle themselves are settled without asking. -/
theorem quiet_settleAll {settings : MergeSettings} {vanilla : Option Tree} {choice : Choice}
    {cs : List Conflict} (h : ∀ c ∈ cs, c.triageChoice? settings vanilla = some choice)
    (s : Progress) :
    FileWork.Quiet (settleAll settings vanilla cs) s []
      (.ok (cs.map fun c => (c.resolve choice, true))) s := by
  induction cs with
  | nil => rfl
  | cons c cs ih =>
    rw [List.forall_mem_cons] at h
    have hsettle : FileWork.Quiet (c.settle settings vanilla) s [] (.ok (c.resolve choice, true)) s := by
      rw [Conflict.settle, h.1]
      exact .ret _ s
    exact .after hsettle (.after (ih h.2) (.ret _ s))

end ModWeave
