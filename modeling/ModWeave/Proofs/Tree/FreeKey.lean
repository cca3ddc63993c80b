import ModWeave.Proofs.Tree.Eager
import ModWeave.Proofs.Tree.Register

/-!
Free keys. The search for one has no end in sight: it looks up a key and then its ordinals, from one on. It
ends, since one of the ordinals up to the number of children is free.
-/
namespace ModWeave

namespace ChildMap

/-- The search for a free ordinal of a key, from `n` on and without a bound: how many signatures are looked
up, and where it ends. -/
inductive Search (m : ChildMap Node) (key : String) : Nat → Nat → String → Prop
  | free {n : Nat} (h : m.contains s!"{key}#{n}" = false) : Search m key n 1 s!"{key}#{n}"
  | taken {n tests : Nat} {found : String} (h : m.contains s!"{key}#{n}" = true)
      (rest : Search m key (n + 1) tests found) : Search m key n (tests + 1) found

/-- The search for a free key, which begins with the key itself. -/
inductive Frees (m : ChildMap Node) (key : String) : Nat → String → Prop
  | plain (h : m.contains key = false) : Frees m key 1 key
  | ordinal {tests : Nat} {found : String} (h : m.contains key = true) (rest : Search m key 1 tests found) :
      Frees m key (tests + 1) found

variable {m : ChildMap Node} {key : String}

theorem search_of_least {n k : Nat} (hfree : m.contains s!"{key}#{n + k}" = false)
    (htaken : ∀ i < k, m.contains s!"{key}#{n + i}" = true) :
    Search m key n (k + 1) s!"{key}#{n + k}" := by
  induction k generalizing n with
  | zero => exact .free hfree
  | succ k ih =>
    have hshift (i : Nat) : n + (i + 1) = n + 1 + i := by omega
    rw [hshift] at hfree ⊢
    refine .taken (htaken 0 (Nat.succ_pos k)) (ih hfree fun i hi => ?_)
    rw [← hshift]
    exact htaken (i + 1) (Nat.succ_lt_succ hi)

theorem freeKey_of_free (h : m.contains key = false) : m.freeKey key = key := by
  rw [freeKey, h, if_neg Bool.false_ne_true]

/-- A key that is taken gets the least ordinal from one that is free, and there are fewer before it than
children. -/
theorem Indexed.freeKey_of_taken (h : m.Indexed) (hkey : m.contains key = true) :
    ∃ n < m.size, m.freeKey key = s!"{key}#{1 + n}" ∧ m.contains s!"{key}#{1 + n}" = false ∧
      ∀ i < n, m.contains s!"{key}#{1 + i}" = true := by
  have hmem : key ∈ m.signatures := h.contains_iff.mp hkey
  obtain ⟨n, hn, hfree, hleast⟩ := freed_of_mem hmem
  obtain ⟨k, hk, hkfree⟩ := exists_free hmem
  have hnk : n ≤ k := by
    by_contra hlt
    exact hkfree (hleast k (Nat.lt_of_not_le hlt))
  rw [signatures, List.length_map] at hk
  rw [← h.freeKey_eq_freed fun x _ => h.contains_iff, Nat.add_comm] at hn
  refine ⟨n, Nat.lt_of_le_of_lt hnk hk, hn, hn ▸ h.freeKey key, fun i hi => ?_⟩
  rw [Nat.add_comm]
  exact h.contains_iff.mpr (hleast i hi)

/-- The search ends with the free key, after one look-up more than there are children at most. -/
theorem Indexed.frees_freeKey (h : m.Indexed) (key : String) :
    ∃ tests ≤ m.size + 1, m.Frees key tests (m.freeKey key) := by
  cases hkey : m.contains key with
  | false =>
    rw [freeKey_of_free hkey]
    exact ⟨1, Nat.succ_le_succ (Nat.zero_le _), .plain hkey⟩
  | true =>
    obtain ⟨n, hn, heq, hfree, htaken⟩ := h.freeKey_of_taken hkey
    rw [heq]
    exact ⟨n + 1 + 1, Nat.succ_le_succ hn, .ordinal hkey (search_of_least hfree htaken)⟩

/-- A node under a free key goes behind the other children. -/
theorem Indexed.insert_freeKey (h : m.Indexed) (key : String) (n : Node) :
    (m.insert (n.resign (m.freeKey key))).1 = none ∧
      (m.insert (n.resign (m.freeKey key))).2.nodes = m.nodes ++ [n.resign (m.freeKey key)] := by
  have hfree : m.contains (n.resign (m.freeKey key)).signature = false := by
    rw [Node.signature_resign, h.freeKey]
  rw [(h.insert hfree).1]
  exact ⟨rfl, rfl⟩

end ChildMap

namespace Block

variable {b : Block}

/-- Whenever a construct finds the first one of its tag unmarked, that one is moved to a free key. -/
theorem markedKey_rekeys (h : b.children.Indexed) (tag : String) (mark : Option String)
    (earlierMark : Node → Option String) : (b.markedKey tag mark earlierMark).2 = b ∨
      ∃ earlier m, b.children.get? tag = some earlier ∧
        b.children.rekey tag (b.children.freeKey (tag ++ ":" ++ (earlierMark earlier).getD "0")) = some m ∧
        (b.markedKey tag mark earlierMark).2 = ⟨m, b.repeated ++ [tag]⟩ := by
  unfold markedKey
  split
  · exact .inl rfl
  · cases hget : b.children.get? tag with
    | none => exact .inl rfl
    | some earlier =>
      have hheld : b.children.contains tag = true := h.get?_isSome.mp (by rw [hget]; rfl)
      obtain ⟨m, hm, -⟩ := h.rekey_nodes hheld (h.freeKey (tag ++ ":" ++ (earlierMark earlier).getD "0"))
      refine .inr ⟨earlier, m, rfl, hm, ?_⟩
      show b.retag tag ((earlierMark earlier).getD "0") = _
      simp only [retag, hm, Option.getD_some]

end Block

/-- The search for a free key ends with the least one that no child has, so that nothing is replaced under
it and each child that is moved to one gets there. -/
theorem ChildMap.freeKey_is_free (changes : List ChildMap.Change) (key : String) :
    let m := ofChanges changes
    (∃ tests ≤ m.size + 1, m.Frees key tests (m.freeKey key)) ∧
      (m.contains key = false → m.freeKey key = key) ∧
      (m.contains key = true → ∃ n, 1 ≤ n ∧ m.freeKey key = s!"{key}#{n}" ∧
        m.contains s!"{key}#{n}" = false ∧ ∀ i, 1 ≤ i → i < n → m.contains s!"{key}#{i}" = true) ∧
      m.contains (m.freeKey key) = false ∧
      (∀ n : Node, (m.insert (n.resign (m.freeKey key))).1 = none ∧
        (m.insert (n.resign (m.freeKey key))).2.nodes = m.nodes ++ [n.resign (m.freeKey key)]) ∧
      ∀ repeated : List String,
        (∀ n : Node, n.kind.repetition ≠ .replaces → Block.replaces ⟨m, repeated⟩ n = false) ∧
        ∀ tag mark earlierMark, (Block.markedKey ⟨m, repeated⟩ tag mark earlierMark).2 = ⟨m, repeated⟩ ∨
          ∃ earlier m', m.get? tag = some earlier ∧
            m.rekey tag (m.freeKey (tag ++ ":" ++ (earlierMark earlier).getD "0")) = some m' ∧
            (Block.markedKey ⟨m, repeated⟩ tag mark earlierMark).2 = ⟨m', repeated ++ [tag]⟩ := by
  intro m
  have hm : m.Indexed := (registered_ofChanges changes).indexed
  refine ⟨hm.frees_freeKey key, freeKey_of_free, fun hkey => ?_, hm.freeKey key, hm.insert_freeKey key,
    fun repeated => ⟨fun n hn => ?_, Block.markedKey_rekeys (b := ⟨m, repeated⟩) hm⟩⟩
  · obtain ⟨n, -, heq, hfree, htaken⟩ := hm.freeKey_of_taken hkey
    refine ⟨1 + n, Nat.le_add_right 1 n, heq, hfree, fun i hi hlt => ?_⟩
    obtain ⟨k, rfl⟩ := Nat.exists_eq_add_of_le hi
    exact htaken k (by omega)
  · rw [← Bool.not_eq_true, Block.replaces_iff (b := ⟨m, repeated⟩) hm,
      Block.not_replaces (b := ⟨m, repeated⟩) hm hn]
    exact Bool.false_ne_true

theorem ChildMap.freeKey_is_free_of_taken_ordinals :
    let leaf (sig : String) : Node := .leaf ⟨sig, .funCall, ⟨0, 4⟩, 1, none⟩
    let m := ofChanges [.insert (leaf "f:1"), .insert (leaf "f:1#1"), .insert (leaf "f:1#3")]
    m.freeKey "f:1" = "f:1#2" ∧ (∃ tests ≤ 4, m.Frees "f:1" tests "f:1#2") ∧
      Block.replaces ⟨m, ["f"]⟩ (leaf "f") = false := by
  intro leaf m
  have hkey : m.freeKey "f:1" = "f:1#2" := by decide +kernel
  obtain ⟨hfrees, -, -, -, -, hblock⟩ := freeKey_is_free
    [.insert (leaf "f:1"), .insert (leaf "f:1#1"), .insert (leaf "f:1#3")] "f:1"
  have hends : ∃ tests ≤ 4, m.Frees "f:1" tests (m.freeKey "f:1") := hfrees
  refine ⟨hkey, ?_, (hblock ["f"]).1 (leaf "f") (by decide)⟩
  rwa [hkey] at hends

end ModWeave
