import Mathlib.Data.List.Nodup
import ModWeave.Cache.Recent

/-!
The slots of a cache of recent values: one for each key, the oldest first, no more than there is room
for. A computation asks for its slot first; what it then finds in the slot is what could be got for the
key, and what the slot pushes out is the oldest of what was there.
-/
namespace ModWeave

namespace RecentCache

variable {α ε : Type} {c : RecentCache α} {now : Nat} {key : String}

/-- The slots that are still good. -/
def fresh (c : RecentCache α) (now : Nat) : List (Slot α) := c.slots.filter (c.isFresh now)

/-- Slots of one age and one key are the same slot, whatever came to be in it. -/
def isSame (s t : Slot α) : Bool := s.key = t.key && s.created = t.created

/-- The slots that were still good and are not there any more. -/
def lost (before after : RecentCache α) (now : Nat) : List (Slot α) :=
  (before.fresh now).filter fun s => !after.slots.any (isSame s)

/-- No two slots of one key, the oldest first, none from the future, no more than there is room for. -/
structure Sound (c : RecentCache α) (now : Nat) : Prop where
  keys : (c.slots.map (·.key)).Nodup
  aged : c.slots.Pairwise (·.created ≤ ·.created)
  born : ∀ s ∈ c.slots, s.created ≤ now
  room : 0 < c.capacity
  bounded : c.size ≤ c.capacity

namespace Sound

theorem new (capacity lifetime now : Nat) : (new capacity lifetime : RecentCache α).Sound now where
  keys := .nil
  aged := .nil
  born := by simp [RecentCache.new]
  room := Nat.lt_of_lt_of_le Nat.one_pos (Nat.le_max_left 1 capacity)
  bounded := Nat.zero_le _

theorem mono {later : Nat} (h : c.Sound now) (hle : now ≤ later) : c.Sound later :=
  { h with born := fun s hs => Nat.le_trans (h.born s hs) hle }

theorem sublist {slots : List (Slot α)} (h : c.Sound now) (hsub : slots.Sublist c.slots) :
    { c with slots }.Sound now where
  keys := h.keys.sublist (hsub.map _)
  aged := h.aged.sublist hsub
  born := fun s hs => h.born s (hsub.subset hs)
  room := h.room
  bounded := Nat.le_trans hsub.length_le h.bounded

theorem invalidate (h : c.Sound now) (key : String) : (c.invalidate key).Sound now :=
  h.sublist List.filter_sublist

/-- Slots of one key are one slot. -/
theorem eq_of_key (h : c.Sound now) {s t : Slot α} (hs : s ∈ c.slots) (ht : t ∈ c.slots)
    (hkey : s.key = t.key) : s = t :=
  List.inj_on_of_nodup_map h.keys hs ht hkey

theorem find?_of_mem (h : c.Sound now) {s : Slot α} (hs : s ∈ c.slots) :
    c.slots.find? (·.key = s.key) = some s := by
  cases hfind : c.slots.find? (·.key = s.key) with
  | none =>
    have hne := List.find?_eq_none.1 hfind s hs
    simp at hne
  | some t =>
    have hkey : t.key = s.key := by simpa using List.find?_some hfind
    rw [h.eq_of_key (List.mem_of_find?_eq_some hfind) hs hkey]

/-- The slot of a key is the one that is good, if there is such a slot. -/
theorem slot?_eq_some_iff (h : c.Sound now) {later : Nat} {s : Slot α} :
    c.slot? later key = some s ↔ s ∈ c.fresh later ∧ s.key = key := by
  simp only [slot?, fresh, Option.filter_eq_some_iff, List.mem_filter]
  constructor
  · rintro ⟨hfind, hfresh⟩
    exact ⟨⟨List.mem_of_find?_eq_some hfind, hfresh⟩, by simpa using List.find?_some hfind⟩
  · rintro ⟨⟨hmem, hfresh⟩, rfl⟩
    exact ⟨h.find?_of_mem hmem, hfresh⟩

theorem slot?_eq_none_iff (h : c.Sound now) {later : Nat} :
    c.slot? later key = none ↔ ∀ s ∈ c.fresh later, s.key ≠ key := by
  rw [Option.eq_none_iff_forall_ne_some]
  simp only [ne_eq, h.slot?_eq_some_iff, not_and]

end Sound

/-- The slots that a new one leaves in place: the youngest of those that are good. -/
def kept (c : RecentCache α) (now : Nat) : List (Slot α) :=
  (c.fresh now).drop ((c.fresh now).length + 1 - c.capacity)

/-- The slots that a new one pushes out. -/
def pushed (c : RecentCache α) (now : Nat) : List (Slot α) :=
  (c.fresh now).take ((c.fresh now).length + 1 - c.capacity)

theorem pushed_append_kept (c : RecentCache α) (now : Nat) : c.pushed now ++ c.kept now = c.fresh now :=
  List.take_append_drop _ _

theorem length_pushed (h : 0 < c.capacity) :
    (c.pushed now).length = (c.fresh now).length + 1 - c.capacity := by
  rw [pushed, List.length_take]
  omega

theorem kept_sublist : (c.kept now).Sublist c.slots :=
  (List.drop_sublist _ _).trans List.filter_sublist

theorem mem_fresh_of_mem_kept {s : Slot α} (hs : s ∈ c.kept now) : s ∈ c.fresh now :=
  List.mem_of_mem_drop hs

theorem reserve_of_some {s : Slot α} (h : c.slot? now key = some s) : c.reserve now key = c := by
  simp [reserve, h]

theorem slots_reserve (h : c.slot? now key = none) :
    (c.reserve now key).slots = c.kept now ++ [⟨key, now, none⟩] := by
  simp [reserve, h, makeRoom, kept, fresh]

theorem mem_reserve {s : Slot α} (hs : s ∈ (c.reserve now key).slots) : s ∈ c.slots ∨ s = ⟨key, now, none⟩ := by
  cases hslot : c.slot? now key with
  | some t => exact .inl (reserve_of_some hslot ▸ hs)
  | none =>
    rw [slots_reserve hslot, List.mem_append, List.mem_singleton] at hs
    exact hs.imp_left fun hs => kept_sublist.subset hs

theorem capacity_reserve : (c.reserve now key).capacity = c.capacity := by
  unfold reserve makeRoom
  split <;> rfl

namespace Sound

theorem reserve (h : c.Sound now) (key : String) : (c.reserve now key).Sound now := by
  cases hslot : c.slot? now key with
  | some s => rwa [reserve_of_some hslot]
  | none =>
    have hkept : ({ c with slots := c.kept now } : RecentCache α).Sound now := h.sublist kept_sublist
    have hkeys : ∀ s ∈ c.kept now, s.key ≠ key := fun s hs =>
      h.slot?_eq_none_iff.1 hslot s (mem_fresh_of_mem_kept hs)
    constructor
    · rw [slots_reserve hslot, List.map_append, List.nodup_append]
      refine ⟨hkept.keys, List.nodup_singleton _, ?_⟩
      simpa using hkeys
    · rw [slots_reserve hslot, List.pairwise_append]
      refine ⟨hkept.aged, List.pairwise_singleton _ _, ?_⟩
      simpa using hkept.born
    · rw [slots_reserve hslot]
      simpa [or_imp, forall_and] using hkept.born
    · rw [capacity_reserve]
      exact h.room
    · have hroom := h.room
      rw [capacity_reserve, size, slots_reserve hslot, List.length_append, kept, List.length_drop,
        List.length_singleton]
      omega

theorem fill (h : c.Sound now) (key : String) (value : α) : (c.fill key value).Sound now := by
  have hkey (s : Slot α) : (if s.key = key then { s with value := some value } else s).key = s.key := by
    split <;> rfl
  have hcreated (s : Slot α) :
      (if s.key = key then { s with value := some value } else s).created = s.created := by
    split <;> rfl
  constructor
  · simpa [RecentCache.fill, Function.comp_def, hkey] using h.keys
  · simpa [RecentCache.fill, List.pairwise_map, hcreated] using h.aged
  · simpa [RecentCache.fill, hcreated] using h.born
  · exact h.room
  · simpa [RecentCache.fill, size] using h.bounded

end Sound

/-- A key that was given a slot has one that is good. -/
theorem Sound.exists_slot?_reserve (h : c.Sound now) (key : String) :
    ∃ s, (c.reserve now key).slot? now key = some s := by
  cases hslot : c.slot? now key with
  | some s => exact ⟨s, by rw [reserve_of_some hslot, hslot]⟩
  | none =>
    refine ⟨⟨key, now, none⟩, (h.reserve key).slot?_eq_some_iff.2 ⟨?_, rfl⟩⟩
    rw [fresh, slots_reserve hslot]
    simp [isFresh]

/-- What the slot of a key holds, whatever its age. -/
def held (c : RecentCache α) (key : String) : Option α := (c.slots.find? (·.key = key)).bind (·.value)

theorem Sound.held_of_mem (h : c.Sound now) {s : Slot α} (hs : s ∈ c.slots) : c.held s.key = s.value := by
  rw [held, h.find?_of_mem hs, Option.bind_some]

/-- Once a key has its slot, the slot holds what the key is known for. -/
theorem Sound.held_reserve (h : c.Sound now) : (c.reserve now key).held key = c.get? now key := by
  cases hslot : c.slot? now key with
  | some s =>
    obtain ⟨hfind, -⟩ := Option.filter_eq_some_iff.1 hslot
    rw [reserve_of_some hslot, held, get?, hslot, hfind]
  | none =>
    have hkept : (c.kept now).find? (·.key = key) = none := by
      simpa using fun s hs => h.slot?_eq_none_iff.1 hslot s (mem_fresh_of_mem_kept hs)
    simp [held, get?, hslot, slots_reserve hslot, hkept]

/-- The value of a key with a computation that is run for it. The key gets its slot first, and what is
in the slot then decides whether there is anything to compute. -/
def getOrRun {m : Type → Type} [Monad m] (c : RecentCache α) (now : Nat) (key : String)
    (compute : m (Except ε α)) : m (Except ε α × RecentCache α) := do
  let c := c.reserve now key
  match c.held key with
  | some value => return (.ok value, c)
  | none =>
    match ← compute with
    | .ok value => return (.ok value, c.fill key value)
    | .error e => return (.error e, c)

/-- Asking for the slot first comes to the same as asking for the value first. -/
theorem Sound.getOrRun_eq {m : Type → Type} [Monad m] [LawfulMonad m] (h : c.Sound now)
    (compute : m (Except ε α)) :
    c.getOrRun now key compute =
      match c.get? now key with
      | some value => pure (.ok value, c)
      | none => (c.getOrCompute now key ·) <$> compute := by
  unfold getOrRun getOrCompute
  dsimp only
  rw [h.held_reserve]
  cases hget : c.get? now key with
  | some value =>
    obtain ⟨s, hslot, -⟩ := Option.bind_eq_some_iff.1 hget
    simp only [reserve_of_some hslot]
  | none =>
    simp only [map_eq_pure_bind]
    congr 1
    funext outcome
    cases outcome <;> rfl

section Losing

variable {s t : Slot α} {value : α}

theorem mem_fill : t ∈ (c.fill key value).slots ↔
    ∃ s ∈ c.slots, (if s.key = key then { s with value := some value } else s) = t := List.mem_map

theorem lost_fill (before c : RecentCache α) (now : Nat) (key : String) (value : α) :
    before.lost (c.fill key value) now = before.lost c now := by
  have hsame (s t : Slot α) :
      isSame s (if t.key = key then { t with value := some value } else t) = isSame s t := by
    split <;> rfl
  simp only [lost, fill, List.any_map, Function.comp_def, hsame]

/-- A computation leaves the slots that it finds, or its own with a value. -/
theorem exists_reserved {outcome : Except ε α} (hget : c.get? now key = none)
    (ht : t ∈ (c.getOrCompute now key outcome).2.slots) :
    ∃ r ∈ (c.reserve now key).slots, r.key = t.key ∧ r.created = t.created ∧ (r.key ≠ key → r = t) := by
  cases outcome with
  | error e =>
    simp only [getOrCompute, hget] at ht
    exact ⟨t, ht, rfl, rfl, fun _ => rfl⟩
  | ok value =>
    simp only [getOrCompute, hget] at ht
    obtain ⟨r, hr, rfl⟩ := mem_fill.1 ht
    refine ⟨r, hr, ?_, ?_, fun hne => by rw [if_neg hne]⟩ <;> split <;> rfl

theorem exists_of_reserved {r : Slot α} (hget : c.get? now key = none) (hr : r ∈ (c.reserve now key).slots)
    (outcome : Except ε α) :
    ∃ t ∈ (c.getOrCompute now key outcome).2.slots, t.key = r.key ∧ t.created = r.created := by
  cases outcome with
  | error e =>
    simp only [getOrCompute, hget]
    exact ⟨r, hr, rfl, rfl⟩
  | ok value =>
    simp only [getOrCompute, hget]
    refine ⟨_, mem_fill.2 ⟨r, hr, rfl⟩, ?_, ?_⟩ <;> split <;> rfl

/-- A slot that is there and is there once room is made is the same, with the same value. -/
theorem Sound.eq_of_reserved {r : Slot α} (h : c.Sound now) (hs : s ∈ c.slots)
    (hr : r ∈ (c.reserve now key).slots) (hkey : s.key = r.key) (hcreated : s.created = r.created) :
    s = r := by
  cases hslot : c.slot? now key with
  | some t =>
    rw [reserve_of_some hslot] at hr
    exact h.eq_of_key hs hr hkey
  | none =>
    obtain hr | rfl := mem_reserve hr
    · exact h.eq_of_key hs hr hkey
    · have hfresh : s ∈ c.fresh now := List.mem_filter.2 ⟨hs, by simp [isFresh, hcreated]⟩
      exact absurd hkey (h.slot?_eq_none_iff.1 hslot s hfresh)

/-- A value that is in a slot was there before, under the same key, or has been computed for it. -/
theorem value_getOrCompute {outcome : Except ε α}
    (ht : t ∈ (c.getOrCompute now key outcome).2.slots) (hvalue : t.value = some value) :
    (∃ s ∈ c.slots, s.key = t.key ∧ s.value = some value) ∨ t.key = key ∧ outcome = .ok value := by
  have hreserved {r : Slot α} (hr : r ∈ (c.reserve now key).slots) (hvalue : r.value = some value) :
      r ∈ c.slots := by
    obtain hr | rfl := mem_reserve hr
    · exact hr
    · cases hvalue
  unfold getOrCompute at ht
  split at ht
  · exact .inl ⟨t, ht, rfl, hvalue⟩
  · cases outcome with
    | error e => exact .inl ⟨t, hreserved ht hvalue, rfl, hvalue⟩
    | ok computed =>
      obtain ⟨r, hr, rfl⟩ := mem_fill.1 ht
      split at hvalue
      · next hkey =>
        refine .inr ⟨by rw [if_pos hkey]; exact hkey, ?_⟩
        rw [Option.some.inj hvalue]
      · next hkey => exact .inl ⟨r, hreserved hr hvalue, by rw [if_neg hkey], hvalue⟩

theorem exists_value_of_get? (hget : c.get? now key = some value) :
    ∃ s ∈ c.slots, s.key = key ∧ s.value = some value := by
  obtain ⟨s, hslot, hvalue⟩ := Option.bind_eq_some_iff.1 hget
  obtain ⟨hfind, -⟩ := Option.filter_eq_some_iff.1 hslot
  exact ⟨s, List.mem_of_find?_eq_some hfind, by simpa using List.find?_some hfind, hvalue⟩

/-- What is computed can be got at once. -/
theorem Sound.get?_getOrCompute {outcome : Except ε α} {c' : RecentCache α} (h : c.Sound now)
    (hc : c.getOrCompute now key outcome = (.ok value, c')) : c'.get? now key = some value := by
  unfold getOrCompute at hc
  split at hc
  · next hget =>
    cases hc
    exact hget
  · dsimp only at hc
    split at hc <;> cases hc
    obtain ⟨r, hr⟩ := h.exists_slot?_reserve key
    obtain ⟨hfresh, hkey⟩ := (h.reserve key).slot?_eq_some_iff.1 hr
    obtain ⟨hmem, hage⟩ := List.mem_filter.1 hfresh
    have hfilled : ((c.reserve now key).fill key value).slot? now key = some { r with value := some value } := by
      refine ((h.reserve key).fill key value).slot?_eq_some_iff.2 ⟨List.mem_filter.2 ⟨?_, hage⟩, hkey⟩
      exact mem_fill.2 ⟨r, hmem, if_pos hkey⟩
    rw [get?, hfilled, Option.bind_some]

theorem lost_self (c : RecentCache α) (now : Nat) : c.lost c now = [] := by
  refine List.filter_eq_nil_iff.2 fun s hs => ?_
  have hany : c.slots.any (isSame s) = true :=
    List.any_eq_true.2 ⟨s, (List.mem_filter.1 hs).1, by simp [isSame]⟩
  simp [hany]

theorem lost_getOrCompute {outcome : Except ε α} (hget : c.get? now key = none) :
    c.lost (c.getOrCompute now key outcome).2 now = c.lost (c.reserve now key) now := by
  unfold getOrCompute
  rw [hget]
  cases outcome with
  | error e => rfl
  | ok value => exact lost_fill ..

/-- A new slot costs those that it pushes out. -/
theorem Sound.lost_reserve (h : c.Sound now) (hslot : c.slot? now key = none) :
    c.lost (c.reserve now key) now = c.pushed now := by
  have hkeys : ((c.fresh now).map (·.key)).Nodup := h.keys.sublist (List.filter_sublist.map _)
  rw [← pushed_append_kept, List.map_append, List.nodup_append] at hkeys
  have hgone : ∀ s ∈ c.pushed now, (!(c.reserve now key).slots.any (isSame s)) = true := by
    intro s hs
    have hne := h.slot?_eq_none_iff.1 hslot s (List.mem_of_mem_take hs)
    have hapart := hkeys.2.2 s.key (List.mem_map_of_mem hs)
    simp only [slots_reserve hslot, isSame, Bool.not_eq_true', List.any_eq_false, List.mem_append,
      List.mem_singleton]
    rintro t (ht | rfl)
    · simpa using fun heq => absurd heq (hapart t.key (List.mem_map_of_mem ht))
    · simp [hne]
  have hstays : ∀ s ∈ c.kept now, ¬(!(c.reserve now key).slots.any (isSame s)) = true := by
    intro s hs
    have hany : (c.reserve now key).slots.any (isSame s) = true := by
      rw [slots_reserve hslot, List.any_append, Bool.or_eq_true]
      exact .inl (List.any_eq_true.2 ⟨s, hs, by simp [isSame]⟩)
    simp [hany]
  rw [lost, ← pushed_append_kept, List.filter_append, List.filter_eq_self.2 hgone,
    List.filter_eq_nil_iff.2 hstays, List.append_nil]

/-- What a new slot pushes out is older than all that is left. -/
theorem Sound.oldest_of_pushed (h : c.Sound now) (hslot : c.slot? now key = none)
    (hs : s ∈ c.pushed now) (ht : t ∈ (c.reserve now key).slots) : s.created ≤ t.created := by
  rw [slots_reserve hslot, List.mem_append, List.mem_singleton] at ht
  obtain ht | rfl := ht
  · have haged : (c.fresh now).Pairwise (·.created ≤ ·.created) := h.aged.sublist List.filter_sublist
    rw [← pushed_append_kept, List.pairwise_append] at haged
    exact haged.2.2 s hs t ht
  · exact h.born s (List.filter_sublist.subset (List.mem_of_mem_take hs))

end Losing

end RecentCache
end ModWeave
