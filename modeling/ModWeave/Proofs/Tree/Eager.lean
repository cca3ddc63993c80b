import ModWeave.Proofs.Tree.Latest
import ModWeave.Proofs.Tree.Tag

/-! Signatures that are given with a whole block in view, in place of one construct after another: what
the signatures of a script come to. -/
namespace ModWeave

/-- The key, or the key with the least ordinal from one with which it is not taken. -/
def freed (taken : List String) (key : String) : String :=
  if key ∈ taken then
    match (List.range taken.length).find? fun n => s!"{key}#{n + 1}" ∉ taken with
    | some n => s!"{key}#{n + 1}"
    | none => key
  else key

/-- The keys of repeated constructs under one tag: each is marked with what it is told by, or else with its
position. -/
def markedKeys (tag : String) (marks : List (Option String)) : List String :=
  marks.foldl (fun keys mark => keys ++ [freed keys (tag ++ ":" ++ mark.getD (toString keys.length))]) []

/-- The nodes under a tag. -/
def alike (tag : String) (ns : List Node) : List Node := ns.filter (·.signature == tag)

/-- The signature in a block of a node that stands behind `before`. A call keeps its tag if it is the only one
of its name, else its first argument or its position tells it from the others. An `if`, and an `else if`, is
told by its position unless it is the only one. All else is told by its tag. -/
def eagerKey (block before : List Node) (n : Node) : String :=
  let tag := n.signature
  let position := toString (alike tag before).length
  match n.kind with
  | .funCall =>
    if (alike tag block).length = 1 then tag
    else freed (markedKeys tag ((alike tag before).map (·.head.firstArg)))
      (tag ++ ":" ++ n.head.firstArg.getD position)
  | .conditional | .elseIf => if (alike tag block).length = 1 then tag else tag ++ ":" ++ position
  | _ => tag

/-- The nodes of a block under their signatures, from those behind `before` on. -/
def signedFrom (block before : List Node) : List Node → List Node
  | [] => []
  | n :: after => n.resign (eagerKey block before n) :: signedFrom block (before ++ [n]) after

/-- The nodes of a block under their signatures. -/
def signed (block : List Node) : List Node := signedFrom block [] block

section Freed

variable {taken : List String} {key : String}

private theorem ordinal_ne (key : String) (n : Nat) : key ≠ s!"{key}#{n}" := by
  intro h
  have := congrArg (·.toList.length) h
  simp [toString] at this

/-- One of as many ordinals as there are keys is free when the key itself is taken. -/
theorem exists_free (hkey : key ∈ taken) : ∃ n < taken.length, s!"{key}#{n + 1}" ∉ taken := by
  by_contra hall
  push Not at hall
  have hnodup : (key :: (List.range taken.length).map fun n => s!"{key}#{n + 1}").Nodup := by
    rw [List.nodup_cons]
    refine ⟨?_, List.Nodup.map_on (fun a _ b _ hab => ?_) List.nodup_range⟩
    · intro hmem
      obtain ⟨n, -, h⟩ := List.mem_map.mp hmem
      exact ordinal_ne key (n + 1) h.symm
    · have := ChildMap.ordinal_injective key hab
      omega
  have hsub : (key :: (List.range taken.length).map fun n => s!"{key}#{n + 1}") ⊆ taken := by
    refine List.cons_subset.mpr ⟨hkey, fun x hx => ?_⟩
    obtain ⟨n, hn, rfl⟩ := List.mem_map.mp hx
    exact hall n (List.mem_range.mp hn)
  have hlen := (hnodup.subperm hsub).length_le
  rw [List.length_cons, List.length_map, List.length_range] at hlen
  exact Nat.not_succ_le_self _ hlen

/-- The key stays as it is unless it is taken. -/
theorem freed_of_not_mem (h : key ∉ taken) : freed taken key = key := if_neg h

/-- A key that is taken gets the least ordinal that frees it. -/
theorem freed_of_mem (h : key ∈ taken) : ∃ n, freed taken key = s!"{key}#{n + 1}" ∧
    s!"{key}#{n + 1}" ∉ taken ∧ ∀ i < n, s!"{key}#{i + 1}" ∈ taken := by
  rw [freed, if_pos h]
  cases hfind : (List.range taken.length).find? fun n => s!"{key}#{n + 1}" ∉ taken with
  | none =>
    obtain ⟨n, hn, hfree⟩ := exists_free h
    exact absurd (decide_eq_true hfree) (List.find?_eq_none.mp hfind n (List.mem_range.mpr hn))
  | some n =>
    obtain ⟨hfree, -, hleast⟩ := List.find?_range_eq_some.mp hfind
    exact ⟨n, rfl, by simpa using hfree, by simpa using hleast⟩

theorem freed_not_mem (taken : List String) (key : String) : freed taken key ∉ taken := by
  by_cases h : key ∈ taken
  · obtain ⟨n, hn, hfree, -⟩ := freed_of_mem h
    rwa [hn]
  · rwa [freed_of_not_mem h]

/-- The key is freed by something behind it. -/
theorem freed_eq_append (taken : List String) (key : String) :
    ∃ x, (freed taken key).toList = key.toList ++ x := by
  by_cases h : key ∈ taken
  · obtain ⟨n, hn, -⟩ := freed_of_mem h
    exact ⟨'#' :: (toString (n + 1)).toList, by simp [hn, toString]⟩
  · exact ⟨[], by rw [freed_of_not_mem h, List.append_nil]⟩

/-- Children free a key as a list does that has the same keys that start with it. -/
theorem ChildMap.Indexed.freeKey_eq_freed {m : ChildMap Node} (h : m.Indexed)
    (hsame : ∀ x : String, key.toList <+: x.toList → (m.contains x ↔ x ∈ taken)) :
    m.freeKey key = freed taken key := by
  have hkey := hsame key List.prefix_rfl
  have hordinal (n : Nat) := hsame s!"{key}#{n}" (by simp [toString])
  by_cases hmem : key ∈ taken
  · obtain ⟨n, hn, hfree, hleast⟩ := freed_of_mem hmem
    obtain ⟨k, hk, htaken⟩ := ChildMap.freeOrdinal_least m key 1 m.size
    have hfree' := h.freeKey key
    rw [ChildMap.freeKey, if_pos (hkey.mpr hmem)] at hfree' ⊢
    rw [hk] at hfree' ⊢
    rw [hn]
    have hnk : n = k := by
      rcases Nat.lt_trichotomy n k with hlt | heq | hlt
      · have := (hordinal (1 + n)).mp (htaken n hlt)
        rw [Nat.add_comm] at this
        exact absurd this hfree
      · exact heq
      · have := (hordinal (k + 1)).mpr (hleast k hlt)
        rw [Nat.add_comm, hfree'] at this
        cases this
    rw [hnk, Nat.add_comm]
  · rw [freed_of_not_mem hmem, ChildMap.freeKey, if_neg (mt hkey.mp hmem)]

end Freed

section MarkedKeys

variable {tag : String} {marks : List (Option String)}

@[simp] theorem markedKeys_nil (tag : String) : markedKeys tag [] = [] := rfl

@[simp] theorem markedKeys_concat (tag : String) (marks : List (Option String)) (mark : Option String) :
    markedKeys tag (marks ++ [mark]) = markedKeys tag marks ++
      [freed (markedKeys tag marks) (tag ++ ":" ++ mark.getD (toString (markedKeys tag marks).length))] := by
  simp [markedKeys]

@[simp] theorem length_markedKeys (tag : String) (marks : List (Option String)) :
    (markedKeys tag marks).length = marks.length := by
  induction marks using List.reverseRecOn with
  | nil => rfl
  | append_singleton marks mark ih => simp [ih]

theorem nodup_markedKeys (tag : String) (marks : List (Option String)) : (markedKeys tag marks).Nodup := by
  induction marks using List.reverseRecOn with
  | nil => exact List.nodup_nil
  | append_singleton marks mark ih =>
    rw [markedKeys_concat]
    exact List.concat_eq_append ▸ ih.concat (freed_not_mem _ _)

theorem mark_of_mem_markedKeys {key : String} (h : key ∈ markedKeys tag marks) :
    ∃ x, key.toList = tag.toList ++ ':' :: x := by
  induction marks using List.reverseRecOn with
  | nil => cases h
  | append_singleton marks mark ih =>
    rw [markedKeys_concat, List.mem_append, List.mem_singleton] at h
    rcases h with h | rfl
    · exact ih h
    · obtain ⟨x, hx⟩ := freed_eq_append (markedKeys tag marks)
        (tag ++ ":" ++ mark.getD (toString (markedKeys tag marks).length))
      exact ⟨_, by rw [hx, String.toList_append, String.toList_append]; simp; rfl⟩

private theorem position_not_mem (tag : String) (k : Nat) :
    tag ++ ":" ++ toString k ∉ (List.range k).map fun i => tag ++ ":" ++ toString i := by
  intro h
  obtain ⟨i, hi, heq⟩ := List.mem_map.mp h
  have := congrArg String.toList heq
  have := ChildMap.digits_injective (a := i) (b := k) (by simpa using this)
  exact Nat.ne_of_lt (List.mem_range.mp hi) this

private theorem markedKeys_positions (tag : String) (k : Nat) :
    markedKeys tag (List.replicate k none) = (List.range k).map fun i => tag ++ ":" ++ toString i := by
  induction k with
  | zero => rfl
  | succ k ih =>
    rw [List.replicate_succ', markedKeys_concat, ih, List.range_succ, List.map_append,
      List.map_singleton, List.length_map, List.length_range, Option.getD_none,
      freed_of_not_mem (position_not_mem tag k)]

/-- Positions never collide. -/
theorem freed_position (tag : String) (k : Nat) :
    freed (markedKeys tag (List.replicate k none)) (tag ++ ":" ++ toString k) =
      tag ++ ":" ++ toString k := by
  rw [markedKeys_positions, freed_of_not_mem (position_not_mem tag k)]

end MarkedKeys

end ModWeave
