import Mathlib.Data.List.Chain
import ModWeave.Proofs.Cache.Recent

/-!
What a cache of recent values does over any history of calls: it stays within its bound, computes what
it could not give without, gives what was computed last, and drops nothing that is still good except
the oldest slots, when a new one needs the room.
-/
namespace ModWeave

namespace RecentCache

variable {α ε : Type} {now : Nat} {key : String}

/-- What is asked of a cache. A computation comes with what it gives if it is run. -/
inductive Call (α ε : Type) where
  | compute (key : String) (outcome : Except ε α)
  | get (key : String)
  | invalidate (key : String)

/-- The key that a call is about. -/
def Call.about : Call α ε → String
  | .compute key _ => key
  | .get key => key
  | .invalidate key => key

/-- A cache and the computations that were run for it, each with its key and what it gave. -/
structure History (α ε : Type) where
  cache : RecentCache α
  runs : List (String × Except ε α)

namespace History

def start (capacity lifetime : Nat) : History α ε := ⟨.new capacity lifetime, []⟩

/-- What the latest computation for a key gave that did not fail. -/
def latest? (h : History α ε) (key : String) : Option α :=
  (h.runs.filterMap fun run => if run.1 = key then run.2.toOption else none).getLast?

/-- Runs a computation: it is noted, and gives what it gives. -/
def run (key : String) (outcome : Except ε α) : StateM (List (String × Except ε α)) (Except ε α) := do
  modify (· ++ [(key, outcome)])
  return outcome

/-- Carries out a call: its answer, if it has one, and what is left. -/
def call (h : History α ε) (now : Nat) : Call α ε → Option (Except ε α) × History α ε
  | .compute key outcome =>
    let ((answer, cache), runs) := (h.cache.getOrRun now key (run key outcome)).run h.runs
    (some answer, ⟨cache, runs⟩)
  | .get key => ((h.cache.get? now key).map .ok, h)
  | .invalidate key => (none, { h with cache := h.cache.invalidate key })

/-- Carries out calls one after the other, each at its time. -/
def calls (h : History α ε) (past : List (Nat × Call α ε)) : History α ε :=
  past.foldl (fun h (now, c) => (h.call now c).2) h

variable {h : History α ε} {outcome : Except ε α} {asked : Call α ε}

theorem call_compute_of_some {value : α} (hs : h.cache.Sound now) (hget : h.cache.get? now key = some value) :
    h.call now (.compute key outcome) = (some (.ok value), h) := by
  simp only [call, hs.getOrRun_eq, hget]
  rfl

theorem call_compute_of_none (hs : h.cache.Sound now) (hget : h.cache.get? now key = none) :
    h.call now (.compute key outcome) =
      (some outcome, ⟨(h.cache.getOrCompute now key outcome).2, h.runs ++ [(key, outcome)]⟩) := by
  simp only [call, hs.getOrRun_eq, hget]
  cases outcome <;> simp only [getOrCompute, hget] <;> rfl

theorem latest?_concat (cache : RecentCache α) (runs : List (String × Except ε α)) (other : String) :
    latest? ⟨cache, runs ++ [(other, outcome)]⟩ key =
      if other = key then outcome.toOption.or (latest? ⟨cache, runs⟩ key) else latest? ⟨cache, runs⟩ key := by
  unfold latest?
  split
  · next heq => cases outcome <;> simp [heq, Except.toOption]
  · next hne => simp [hne]

/-- The cache is sound and holds what was computed last. -/
structure Sound (h : History α ε) (now : Nat) : Prop where
  cache : h.cache.Sound now
  latest : ∀ s ∈ h.cache.slots, ∀ value, s.value = some value → h.latest? s.key = some value

namespace Sound

theorem start (capacity lifetime now : Nat) : (start capacity lifetime : History α ε).Sound now where
  cache := .new capacity lifetime now
  latest := by simp [History.start, RecentCache.new]

theorem mono {later : Nat} (hs : h.Sound now) (hle : now ≤ later) : h.Sound later :=
  { hs with cache := hs.cache.mono hle }

/-- Behind the slot that a computation is for, every value is one that was there before, of another key. -/
private theorem of_reserve (hs : h.Sound now) (hget : h.cache.get? now key = none) {s : Slot α} {value : α}
    (hmem : s ∈ (h.cache.reserve now key).slots) (hvalue : s.value = some value) :
    key ≠ s.key ∧ h.latest? s.key = some value := by
  have hkey : key ≠ s.key := by
    rintro rfl
    rw [← hs.cache.held_reserve, (hs.cache.reserve _).held_of_mem hmem, hvalue] at hget
    cases hget
  obtain hmem | rfl := mem_reserve hmem
  · exact ⟨hkey, hs.latest s hmem value hvalue⟩
  · cases hvalue

theorem call (hs : h.Sound now) (asked : Call α ε) : (h.call now asked).2.Sound now := by
  cases asked with
  | get key => exact hs
  | invalidate key =>
    exact ⟨hs.cache.invalidate key, fun s hmem => hs.latest s (List.mem_of_mem_filter hmem)⟩
  | compute key outcome =>
    cases hget : h.cache.get? now key with
    | some value => rwa [call_compute_of_some hs.cache hget]
    | none =>
      rw [call_compute_of_none hs.cache hget]
      cases outcome with
      | error e =>
        simp only [getOrCompute, hget]
        refine ⟨hs.cache.reserve key, fun s hmem value hvalue => ?_⟩
        obtain ⟨hkey, hlatest⟩ := hs.of_reserve hget hmem hvalue
        rw [latest?_concat, if_neg hkey]
        exact hlatest
      | ok computed =>
        simp only [getOrCompute, hget]
        refine ⟨(hs.cache.reserve key).fill key computed, fun s hmem value hvalue => ?_⟩
        obtain ⟨t, ht, rfl⟩ := List.mem_map.1 hmem
        rw [latest?_concat]
        split at hvalue
        · next hkey =>
          rw [if_pos hkey, if_pos hkey.symm]
          simpa [Except.toOption] using hvalue
        · next hkey =>
          obtain ⟨hne, hlatest⟩ := hs.of_reserve hget ht hvalue
          rw [if_neg hkey, if_neg hne]
          exact hlatest

/-- Calls one after the other, under a clock that never goes back, keep the cache sound. -/
theorem calls {past : List (Nat × Call α ε)} {first : Nat} (hs : h.Sound first)
    (hclock : (first :: (past.map (·.1) ++ [now])).IsChain (· ≤ ·)) : (h.calls past).Sound now := by
  induction past generalizing h first with
  | nil => exact hs.mono (List.isChain_cons_cons.1 hclock).1
  | cons c past ih =>
    obtain ⟨hle, hclock⟩ := List.isChain_cons_cons.1 hclock
    exact ih ((hs.mono hle).call c.2) hclock

end Sound

theorem capacity_call (h : History α ε) (now : Nat) (asked : Call α ε) :
    (h.call now asked).2.cache.capacity = h.cache.capacity := by
  cases asked with
  | get key => rfl
  | invalidate key => rfl
  | compute key outcome =>
    simp only [call, getOrRun, run]
    cases (h.cache.reserve now key).held key with
    | some value => exact capacity_reserve
    | none => cases outcome <;> exact capacity_reserve

theorem capacity_calls (h : History α ε) (past : List (Nat × Call α ε)) :
    (h.calls past).cache.capacity = h.cache.capacity := by
  induction past generalizing h with
  | nil => rfl
  | cons c past ih => exact (ih _).trans (h.capacity_call c.1 c.2)

/-- What a call does to a cache with room for `bound` slots. -/
structure Serves (bound now : Nat) (asked : Call α ε) (before : History α ε)
    (answer : Option (Except ε α)) (after : History α ε) : Prop where
  bounded : after.cache.size ≤ bound
  /-- A computation runs where the value cannot be got, and then gives the answer; else it does not run. -/
  computes : ∀ key outcome, asked = .compute key outcome →
    (before.cache.get? now key = none ∧ answer = some outcome ∧
      after.runs = before.runs ++ [(key, outcome)]) ∨
    ∃ value, before.cache.get? now key = some value ∧ answer = some (.ok value) ∧ after.runs = before.runs
  looks : (∀ key outcome, asked ≠ .compute key outcome) → after.runs = before.runs
  /-- What is given for a key is what was computed last for it. -/
  latest : ∀ value, answer = some (.ok value) → after.latest? asked.about = some value
  /-- What is computed can be got. -/
  memo : ∀ key outcome value, asked = .compute key outcome → answer = some (.ok value) →
    after.cache.get? now key = some value
  /-- A slot that is there before and after keeps its value. -/
  keeps : ∀ s ∈ before.cache.slots, ∀ t ∈ after.cache.slots, isSame s t → ∀ value,
    s.value = some value → t.value = some value
  /-- A slot that is still good goes when its key is invalidated, or when a new slot takes its place: then
  it is as old as any, and no more go than the bound asks for. -/
  loses : ∀ s ∈ before.cache.lost after.cache now, asked = .invalidate s.key ∨
    (∃ key outcome, asked = .compute key outcome ∧ before.cache.slot? now key = none ∧
      ∃ t ∈ after.cache.slots, t.key = key ∧ t.created = now) ∧
    (∀ t ∈ after.cache.slots, s.created ≤ t.created) ∧
    (before.cache.lost after.cache now).length = (before.cache.fresh now).length + 1 - bound

/-- A call that leaves everything as it is serves when it gives what it should. -/
private theorem serves_of_eq {answer : Option (Except ε α)} (hs : h.Sound now)
    (hget : ∀ value, answer = some (.ok value) → h.cache.get? now asked.about = some value)
    (hcompute : ∀ key outcome, asked = .compute key outcome → ∃ value, answer = some (.ok value)) :
    Serves h.cache.capacity now asked h answer h where
  bounded := hs.cache.bounded
  computes := by
    rintro key outcome rfl
    obtain ⟨value, rfl⟩ := hcompute key outcome rfl
    exact .inr ⟨value, hget value rfl, rfl, rfl⟩
  looks _ := rfl
  latest := by
    intro value hanswer
    obtain ⟨s, hslot, hvalue⟩ := Option.bind_eq_some_iff.1 (hget value hanswer)
    obtain ⟨hfresh, hkey⟩ := hs.cache.slot?_eq_some_iff.1 hslot
    rw [← hkey]
    exact hs.latest s (List.mem_filter.1 hfresh).1 value hvalue
  memo := by
    rintro key outcome value rfl hanswer
    exact hget value hanswer
  keeps := by
    intro s hmem t ht hsame value hvalue
    simp only [isSame, Bool.and_eq_true, decide_eq_true_eq] at hsame
    rwa [← hs.cache.eq_of_key hmem ht hsame.1]
  loses := by simp [lost_self]

private theorem serves_invalidate (hs : h.Sound now) (key : String) :
    Serves h.cache.capacity now (.invalidate key) h none { h with cache := h.cache.invalidate key } where
  bounded := (hs.cache.invalidate key).bounded
  computes := by simp
  looks _ := rfl
  latest := by simp
  memo := by simp
  keeps := by
    intro s hmem t ht hsame value hvalue
    simp only [isSame, Bool.and_eq_true, decide_eq_true_eq] at hsame
    rwa [← hs.cache.eq_of_key hmem (List.mem_of_mem_filter ht) hsame.1]
  loses := by
    intro s hlost
    refine .inl ?_
    obtain ⟨hfresh, hgone⟩ := List.mem_filter.1 hlost
    by_contra hne
    have hany : (h.cache.invalidate key).slots.any (isSame s) = true := by
      refine List.any_eq_true.2 ⟨s, List.mem_filter.2 ⟨(List.mem_filter.1 hfresh).1, ?_⟩, by simp [isSame]⟩
      simpa using fun heq : s.key = key => hne (by rw [heq])
    simp [hany] at hgone

/-- A computation that runs. -/
private theorem serves_run (hs : h.Sound now) (hget : h.cache.get? now key = none) (outcome : Except ε α) :
    Serves h.cache.capacity now (.compute key outcome) h (some outcome)
      ⟨(h.cache.getOrCompute now key outcome).2, h.runs ++ [(key, outcome)]⟩ where
  bounded := by
    have hafter := hs.call (.compute key outcome)
    rw [call_compute_of_none hs.cache hget] at hafter
    refine Nat.le_trans hafter.cache.bounded (Nat.le_of_eq ?_)
    cases outcome <;> simp only [getOrCompute, hget, fill, capacity_reserve]
  computes := by
    rintro _ _ ⟨⟩
    exact .inl ⟨hget, rfl, rfl⟩
  looks := by simp
  latest := by
    rintro value ⟨⟩
    simp [latest?_concat, Call.about, Except.toOption]
  memo := by
    rintro _ _ value ⟨⟩ ⟨⟩
    exact hs.cache.get?_getOrCompute (by rw [getOrCompute, hget])
  keeps := by
    intro s hmem t ht hsame value hvalue
    simp only [isSame, Bool.and_eq_true, decide_eq_true_eq] at hsame
    obtain ⟨r, hr, hkey, hcreated, hother⟩ := exists_reserved hget ht
    obtain rfl := hs.cache.eq_of_reserved hmem hr (hsame.1.trans hkey.symm) (hsame.2.trans hcreated.symm)
    rwa [← hother (hs.of_reserve hget hr hvalue).1.symm]
  loses := by
    intro s hlost
    refine .inr ?_
    rw [lost_getOrCompute hget] at hlost ⊢
    cases hslot : h.cache.slot? now key with
    | some r =>
      rw [reserve_of_some hslot, lost_self] at hlost
      cases hlost
    | none =>
      rw [hs.cache.lost_reserve hslot] at hlost ⊢
      refine ⟨⟨key, outcome, rfl, hslot, ?_⟩, ?_, length_pushed hs.cache.room⟩
      · obtain ⟨t, ht, hkey, hcreated⟩ := exists_of_reserved hget (r := ⟨key, now, none⟩)
          (by simp [slots_reserve hslot]) outcome
        exact ⟨t, ht, hkey, hcreated⟩
      · intro t ht
        obtain ⟨r, hr, -, hcreated, -⟩ := exists_reserved hget ht
        rw [← hcreated]
        exact hs.cache.oldest_of_pushed hslot hlost hr

/-- A call to a sound cache. -/
theorem Sound.serves (hs : h.Sound now) (asked : Call α ε) :
    Serves h.cache.capacity now asked h (h.call now asked).1 (h.call now asked).2 := by
  cases asked with
  | get key =>
    refine serves_of_eq hs (fun value hanswer => ?_) (by simp)
    simpa [History.call, Call.about] using hanswer
  | invalidate key => exact serves_invalidate hs key
  | compute key outcome =>
    cases hget : h.cache.get? now key with
    | some value =>
      rw [call_compute_of_some hs.cache hget]
      refine serves_of_eq hs ?_ (fun _ _ _ => ⟨value, rfl⟩)
      simpa [Call.about] using hget
    | none =>
      rw [call_compute_of_none hs.cache hget]
      exact serves_run hs hget outcome

end History

/-- Whatever was asked of a new cache before, under a clock that never goes back: the next call is served
as a bounded memo serves it. -/
theorem serves_of_calls (capacity lifetime : Nat) (past : List (Nat × Call α ε)) (asked : Call α ε)
    (hclock : (past.map (·.1) ++ [now]).IsChain (· ≤ ·)) :
    let before := (History.start capacity lifetime).calls past
    History.Serves (max 1 capacity) now asked before (before.call now asked).1 (before.call now asked).2 := by
  intro before
  have hclock' : (0 :: (past.map (·.1) ++ [now])).IsChain (· ≤ ·) :=
    List.isChain_cons.2 ⟨fun _ _ => Nat.zero_le _, hclock⟩
  have hsound : before.Sound now := (History.Sound.start capacity lifetime 0).calls hclock'
  have hcapacity : before.cache.capacity = max 1 capacity := History.capacity_calls _ past
  rw [← hcapacity]
  exact hsound.serves asked

/-- A third key in a cache with room for two: a computation that failed was run again, and the oldest
slot goes. -/
theorem serves_third_key :
    let past : List (Nat × Call Nat String) :=
      [(0, .compute "a" (.ok 1)), (2, .compute "b" (.error "bad")), (3, .compute "b" (.ok 2))]
    let before := (History.start 2 60).calls past
    let after := (before.call 4 (.compute "c" (.ok 3))).2
    (past.map Prod.fst ++ [4]).IsChain (· ≤ ·) ∧
      History.Serves 2 4 (.compute "c" (.ok 3)) before (some (.ok 3)) after ∧
      before.cache.lost after.cache 4 = [⟨"a", 0, some 1⟩] ∧ after.latest? "b" = some 2 := by
  intro past before after
  have hclock : (past.map Prod.fst ++ [4]).IsChain (· ≤ ·) := by decide
  exact ⟨hclock, serves_of_calls 2 60 past (.compute "c" (.ok 3)) hclock, by decide, by decide⟩

end RecentCache
end ModWeave
