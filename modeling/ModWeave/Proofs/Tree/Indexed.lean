import Mathlib.Data.List.Nodup
import Mathlib.Data.List.Perm.Subperm
import ModWeave.Proofs.Tree.Keys

/-! The index of children. As long as no construct takes another's place, each child is found under its
own signature, and the children are the constructs in the order they were read. -/
namespace ModWeave

namespace ChildMap

variable {m : ChildMap Node}

/-- Each child is found under its own signature, and nothing else is found. -/
def Indexed (m : ChildMap Node) : Prop :=
  ∀ sig i, m.position? sig = some i ↔ m.nodes[i]?.map Node.signature = some sig

theorem indexed_empty : (empty : ChildMap Node).Indexed := by
  intro sig i
  simp [empty, position?]

theorem Indexed.nodup (h : m.Indexed) : m.signatures.Nodup := by
  rw [List.nodup_iff_injective_getElem]
  rintro ⟨i, hi⟩ ⟨j, hj⟩ hij
  simp only [signatures, List.getElem_map, Node.signed_signature, List.length_map] at hij hi hj
  have h1 := (h (m.nodes[i]).signature i).mpr (by simp [hi])
  have h2 := (h (m.nodes[i]).signature j).mpr (by simp [hj, hij])
  rw [h1] at h2
  exact Fin.ext (Option.some.inj h2)

theorem Indexed.contains_iff (h : m.Indexed) {sig : String} :
    m.contains sig ↔ sig ∈ m.signatures := by
  rw [contains, Option.isSome_iff_exists, signatures, List.mem_iff_getElem?]
  simp only [h sig, List.getElem?_map]
  rfl

theorem Indexed.get?_eq_some (h : m.Indexed) {sig : String} {n : Node} :
    m.get? sig = some n ↔ n ∈ m.nodes ∧ n.signature = sig := by
  rw [get?, Option.bind_eq_some_iff]
  constructor
  · rintro ⟨i, hi, hn⟩
    refine ⟨List.mem_of_getElem? hn, ?_⟩
    have := (h sig i).mp hi
    rw [hn] at this
    exact Option.some.inj this
  · rintro ⟨hmem, rfl⟩
    obtain ⟨i, hi⟩ := List.getElem?_of_mem hmem
    exact ⟨i, (h _ i).mpr (by rw [hi]; rfl), hi⟩

theorem Indexed.get?_isSome (h : m.Indexed) {sig : String} :
    (m.get? sig).isSome ↔ m.contains sig := by
  rw [Option.isSome_iff_exists, h.contains_iff, signatures, List.mem_map]
  simp only [h.get?_eq_some]
  rfl

private theorem lookup_single (k sig : String) (i : Nat) :
    [(k, i)].lookup sig = if sig = k then some i else none := by
  rw [List.lookup_cons, List.lookup_nil]
  by_cases h : sig = k
  · simp [h]
  · rw [beq_false_of_ne h, if_neg h]

/-- A child with a new signature goes behind the others. -/
theorem Indexed.insert (h : m.Indexed) {n : Node} (hn : m.contains n.signature = false) :
    m.insert n = (none, ⟨m.nodes ++ [n], m.index ++ [(n.signature, m.nodes.length)]⟩) ∧
      (m.insert n).2.Indexed := by
  have hpos : m.position? n.signature = none := by
    rwa [contains, Option.isSome_eq_false_iff, Option.isNone_iff_eq_none] at hn
  have heq : m.insert n =
      (none, ⟨m.nodes ++ [n], m.index ++ [(n.signature, m.nodes.length)]⟩) := by
    simp only [ChildMap.insert, Node.signed_signature, hpos]
  refine ⟨heq, ?_⟩
  rw [heq]
  intro sig i
  have hold := h sig i
  show (m.index ++ [(n.signature, m.nodes.length)]).lookup sig = some i ↔
    (m.nodes ++ [n])[i]?.map Node.signature = some sig
  rw [List.lookup_append, lookup_single]
  rcases Nat.lt_trichotomy i m.nodes.length with hi | rfl | hi
  · rw [List.getElem?_append_left hi, ← hold, position?]
    by_cases hsig : sig = n.signature
    · subst hsig
      rw [position?] at hpos
      simp [hpos, Nat.ne_of_gt hi]
    · simp [hsig]
  · have hnone : m.position? sig ≠ some m.nodes.length := by
      rw [ne_eq, hold]
      simp
    rw [List.getElem?_append_right (Nat.le_refl _), Nat.sub_self]
    by_cases hsig : sig = n.signature
    · subst hsig
      rw [position?] at hpos
      simp [hpos]
    · rw [position?] at hnone
      simp [hsig, hnone, Ne.symm hsig]
  · have hnone : m.position? sig ≠ some i := by
      rw [ne_eq, hold]
      simp [Nat.le_of_lt hi]
    rw [position?] at hnone
    have hlen : (m.nodes ++ [n]).length ≤ i := by
      simp only [List.length_append, List.length_singleton]
      omega
    rw [List.getElem?_eq_none hlen]
    by_cases hsig : sig = n.signature
    · subst hsig
      rw [position?] at hpos
      simp [hpos, Nat.ne_of_lt hi]
    · simp [hsig, hnone]

private theorem lookup_filter_ne (l : List (String × Nat)) (source sig : String) :
    (l.filter fun e => e.1 != source).lookup sig = if sig = source then none else l.lookup sig := by
  induction l with
  | nil => simp
  | cons e l ih =>
    obtain ⟨k, i⟩ := e
    by_cases hk : k = source
    · subst hk
      rw [List.filter_cons_of_neg (by simp), ih]
      split
      · rfl
      · rename_i hne
        rw [List.lookup_cons, beq_false_of_ne hne]
    · rw [List.filter_cons_of_pos (by simp [hk]), List.lookup_cons, List.lookup_cons, ih]
      by_cases hsig : sig = k
      · subst hsig
        simp [hk]
      · rw [beq_false_of_ne hsig]

/-- Moving a child to a new signature changes nothing else. -/
theorem Indexed.rekey (h : m.Indexed) {source target : String} {m' : ChildMap Node}
    (hm : m.rekey source target = some m') :
    m'.Indexed ∧ m'.nodes.map (Node.resign "") = m.nodes.map (Node.resign "") := by
  unfold ChildMap.rekey at hm
  split at hm
  · cases hm
  rename_i ht
  split at hm
  · cases hm
  rename_i j hj
  cases hm
  constructor
  · intro sig i
    show (m.index.filter (·.1 != source) ++ [(target, j)]).lookup sig = some i ↔
      (m.nodes.modify j (Node.resign target))[i]?.map Node.signature = some sig
    rw [List.lookup_append, lookup_filter_ne, lookup_single, List.getElem?_modify]
    have hsource : m.nodes[j]?.map Node.signature = some source := (h source j).mp hj
    have htarget : m.index.lookup target = none := by
      rw [contains, position?, Option.isSome_iff_ne_none, not_not] at ht
      exact ht
    have hne : target ≠ source := by
      rintro rfl
      rw [position?, htarget] at hj
      cases hj
    have hsig := h sig i
    rw [position?] at hsig hj
    obtain ⟨n, hn, rfl⟩ := Option.map_eq_some_iff.mp hsource
    by_cases hij : j = i
    · subst hij
      simp only [hn, Option.map_some, Option.some.injEq, if_true, Option.map_eq_map,
        Node.signature_resign] at hsig ⊢
      by_cases h1 : sig = n.signature
      · subst h1
        simp [hne, Ne.symm hne]
      · by_cases h2 : sig = target
        · subst h2
          simp [htarget]
        · simp [h1, h2, hsig, Ne.symm h1, Ne.symm h2]
    · simp only [if_neg hij, id_map', ← hsig]
      by_cases h1 : sig = n.signature
      · subst h1
        simp [hj, hij, Ne.symm hne]
      · by_cases h2 : sig = target
        · subst h2
          simp [htarget, hij]
        · simp [h1, h2]
  · apply List.ext_getElem?
    intro k
    rw [List.getElem?_map, List.getElem?_map, List.getElem?_modify]
    split
    · cases m.nodes[k]? with
      | none => rfl
      | some n => cases n <;> rfl
    · rw [id_map']

private theorem contains_freeOrdinal {key : String} {n tries : Nat}
    (h : m.contains (m.freeOrdinal key n tries)) (k : Nat) (hk : k ≤ tries) :
    m.contains s!"{key}#{n + k}" := by
  induction tries generalizing n k with
  | zero =>
    obtain rfl : k = 0 := by omega
    exact h
  | succ tries ih =>
    rw [freeOrdinal] at h
    split at h
    · rename_i hn
      cases k with
      | zero => exact hn
      | succ k =>
        have := ih h k (by omega)
        rwa [Nat.add_assoc, Nat.add_comm 1 k] at this
    · contradiction

/-- All ordinals before the one that is found are taken. -/
theorem freeOrdinal_least (m : ChildMap Node) (key : String) (n tries : Nat) :
    ∃ k, m.freeOrdinal key n tries = s!"{key}#{n + k}" ∧ ∀ i < k, m.contains s!"{key}#{n + i}" := by
  induction tries generalizing n with
  | zero => exact ⟨0, rfl, by simp⟩
  | succ tries ih =>
    rw [freeOrdinal]
    split
    · rename_i hn
      obtain ⟨k, hk, hleast⟩ := ih (n + 1)
      refine ⟨k + 1, by rw [hk, Nat.add_assoc, Nat.add_comm 1 k], fun i hi => ?_⟩
      cases i with
      | zero => exact hn
      | succ i =>
        have := hleast i (by omega)
        rwa [Nat.add_assoc, Nat.add_comm 1 i] at this
    · exact ⟨0, rfl, by simp⟩

theorem digits_injective {a b : Nat} (h : (toString a).toList = (toString b).toList) : a = b := by
  rw [Nat.toString_eq_ofList_toDigits, Nat.toString_eq_ofList_toDigits, String.toList_ofList,
    String.toList_ofList] at h
  rw [← Nat.ofDigitChars_ten_toDigits (n := a), h, Nat.ofDigitChars_ten_toDigits]

theorem ordinal_injective (key : String) {a b : Nat} (h : s!"{key}#{a}" = s!"{key}#{b}") : a = b := by
  have := congrArg String.toList h
  exact digits_injective (by simpa using this)

/-- There are more ordinals to try than children. -/
theorem Indexed.freeKey (h : m.Indexed) (key : String) : m.contains (m.freeKey key) = false := by
  rw [ChildMap.freeKey]
  split
  · by_contra hc
    rw [Bool.not_eq_false] at hc
    have hall := contains_freeOrdinal hc
    let keys := (List.range (m.size + 1)).map fun k => s!"{key}#{1 + k}"
    have hnodup : keys.Nodup := by
      apply List.Nodup.map_on _ List.nodup_range
      intro a _ b _ hab
      have := ordinal_injective key hab
      omega
    have hsub : keys ⊆ m.signatures := by
      intro sig hsig
      obtain ⟨k, hk, rfl⟩ := List.mem_map.mp hsig
      rw [List.mem_range] at hk
      exact h.contains_iff.mp (hall k (by omega))
    have hlen := (hnodup.subperm hsub).length_le
    simp only [keys, signatures, size, List.length_map, List.length_range] at hlen
    omega
  · rename_i hc
    simpa using hc

end ChildMap

namespace Block

variable {b : Block} {n : Node}

theorem indexed_retag (h : b.children.Indexed) (tag mark : String) :
    (b.retag tag mark).children.Indexed ∧
      (b.retag tag mark).children.nodes.map (Node.resign "") =
        b.children.nodes.map (Node.resign "") := by
  unfold retag
  simp only
  cases hr : b.children.rekey tag (b.children.freeKey (tag ++ ":" ++ mark)) with
  | none => exact ⟨h, rfl⟩
  | some m => exact h.rekey hr

theorem indexed_markedKey (h : b.children.Indexed) (tag : String) (mark : Option String)
    (earlierMark : Node → Option String) :
    (b.markedKey tag mark earlierMark).2.children.Indexed ∧
      (b.markedKey tag mark earlierMark).2.children.nodes.map (Node.resign "") =
        b.children.nodes.map (Node.resign "") := by
  unfold markedKey
  split
  · exact ⟨h, rfl⟩
  · cases b.children.get? tag with
    | none => exact ⟨h, rfl⟩
    | some earlier => exact indexed_retag h _ _

theorem indexed_key (h : b.children.Indexed) (n : Node) :
    (b.key n).2.children.Indexed ∧
      (b.key n).2.children.nodes.map (Node.resign "") =
        b.children.nodes.map (Node.resign "") := by
  unfold key
  cases n.kind.repetition with
  | replaces => exact ⟨h, rfl⟩
  | byOrdinal => exact ⟨h, rfl⟩
  | byArgument => exact indexed_markedKey h _ _ _
  | byPosition => exact indexed_markedKey h _ _ _

/-- Only a construct that is known by nothing but its tag takes the place of another. -/
theorem not_replaces (h : b.children.Indexed) (hn : n.kind.repetition ≠ .replaces) :
    (b.key n).2.children.contains (b.key n).1 = false := by
  unfold key
  cases hr : n.kind.repetition with
  | replaces => exact absurd hr hn
  | byOrdinal => exact h.freeKey _
  | byArgument => exact (indexed_markedKey h _ _ _).1.freeKey _
  | byPosition => exact (indexed_markedKey h _ _ _).1.freeKey _

theorem replaces_iff (h : b.children.Indexed) :
    b.replaces n ↔ (b.key n).2.children.contains (b.key n).1 := by
  have hk := (indexed_key h n).1
  unfold replaces ChildMap.insert
  simp only [Node.signed_signature, Node.signature_resign]
  rw [ChildMap.contains]
  cases hp : (b.key n).2.children.position? (b.key n).1 with
  | none => simp
  | some i =>
    have := (hk _ _).mp hp
    obtain ⟨m, hm, -⟩ := Option.map_eq_some_iff.mp this
    simp [hm]

/-- A node that takes no one's place goes behind the others. -/
theorem indexed_attach (h : b.children.Indexed) (hn : b.replaces n = false) :
    (b.attach n).children.Indexed ∧
      (b.attach n).children.nodes.map (Node.resign "") =
        b.children.nodes.map (Node.resign "") ++ [n.resign ""] := by
  obtain ⟨hk, hnodes⟩ := indexed_key h n
  have hfree : (b.key n).2.children.contains (n.resign (b.key n).1).signature = false := by
    rw [Node.signature_resign, ← Bool.not_eq_true, ← replaces_iff h, hn]
    simp
  obtain ⟨hins, hidx⟩ := hk.insert hfree
  refine ⟨hidx, ?_⟩
  show ((b.key n).2.children.insert (n.resign (b.key n).1)).2.nodes.map (Node.resign "") = _
  rw [hins, List.map_append, hnodes]
  cases n <;> rfl

end Block

/-- Constructs of which none takes another's place become the children, in order. -/
theorem indexed_attachAll {b : Block} {cs : List Construct} (h : b.children.Indexed)
    (hn : replacesAmong b cs = false) :
    (attachAll b cs).children.Indexed ∧
      (attachAll b cs).children.nodes.map (Node.resign "") =
        b.children.nodes.map (Node.resign "") ++ cs.map (·.node.resign "") := by
  induction cs generalizing b with
  | nil => exact ⟨h, by simp [attachAll]⟩
  | cons c cs ih =>
    rw [replacesAmong, Bool.or_eq_false_iff] at hn
    obtain ⟨hidx, hnodes⟩ := Block.indexed_attach h hn.1
    obtain ⟨hidx', hnodes'⟩ := ih hidx hn.2
    exact ⟨hidx', by rw [attachAll, hnodes', hnodes, List.map_cons, List.append_assoc]; rfl⟩

end ModWeave
