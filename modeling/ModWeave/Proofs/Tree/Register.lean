import Mathlib.Data.List.Sigma
import ModWeave.Proofs.Tree.Latest

/-!
The index of children through any number of changes. It is kept apart from the list of nodes, and a change
touches both; whatever was inserted and re-keyed before, the two tell the same.
-/
namespace ModWeave.ChildMap

/-- What is done to children. -/
inductive Change where
  | insert (node : Node)
  | rekey (source target : String)

namespace Change

/-- The children after a change. A refused one leaves them as they are. -/
def apply (m : ChildMap Node) : Change → ChildMap Node
  | insert node => (m.insert node).2
  | rekey source target => (m.rekey source target).getD m

/-- The signature of the child that a change is about. -/
def subject : Change → String
  | insert node => node.signature
  | rekey source _ => source

end Change

/-- What changes make of children, one behind the other. -/
def after (m : ChildMap Node) (changes : List Change) : ChildMap Node := changes.foldl Change.apply m

/-- The children that changes make from none. -/
def ofChanges (changes : List Change) : ChildMap Node := empty.after changes

/-- The child under `source`, if it is that, under `target`. -/
def renamed (source target : String) (n : Node) : Node :=
  if n.signature = source then n.resign target else n

/-- The index holds the signature of each child with the child's position, and nothing else. -/
structure InStep (m : ChildMap Node) : Prop where
  distinct : m.signatures.Nodup
  index : m.index.Perm m.signatures.zipIdx

/-- What is looked up among the children is what the list of nodes has. -/
structure Answers (m : ChildMap Node) : Prop where
  get (sig : String) : m.get? sig = m.nodes.find? (·.signature == sig)
  contains (sig : String) : m.contains sig = true ↔ sig ∈ m.signatures
  position (sig : String) : m.position? sig = m.nodes.findIdx? (·.signature == sig)
  child (i : Nat) : m.at? i = m.nodes[i]?
  count (start : String) :
    m.countPrefixed start = m.signatures.countP fun sig => start.toList.isPrefixOf sig.toList

variable {m : ChildMap Node} {n x : Node} {source target sig : String} {i : Nat}

/-- Each child is found under its own signature, and no signature stands in the index twice. -/
structure Registered (m : ChildMap Node) : Prop where
  indexed : m.Indexed
  once : (m.index.map Prod.fst).Nodup

theorem registered_empty : (empty : ChildMap Node).Registered := ⟨indexed_empty, List.nodup_nil⟩

theorem not_mem_index (h : m.contains sig = false) : sig ∉ m.index.map Prod.fst := by
  rw [contains, Option.isSome_eq_false_iff, Option.isNone_iff_eq_none, position?,
    List.lookup_eq_none_iff] at h
  intro hmem
  obtain ⟨entry, hentry, rfl⟩ := List.mem_map.mp hmem
  simpa using h entry hentry

theorem Registered.insert (h : m.Registered) (n : Node) : (m.insert n).2.Registered := by
  cases hp : m.position? n.signature with
  | some i =>
    obtain ⟨heq, hindexed⟩ := h.indexed.replace hp
    refine ⟨hindexed, ?_⟩
    rw [heq]
    exact h.once
  | none =>
    have hfree : m.contains n.signature = false := by rw [contains, hp]; rfl
    obtain ⟨heq, hindexed⟩ := h.indexed.insert hfree
    refine ⟨hindexed, ?_⟩
    rw [heq, List.map_append, List.map_singleton, ← List.concat_eq_append]
    exact h.once.concat (not_mem_index hfree)

theorem Registered.rekey {m' : ChildMap Node} (h : m.Registered) (hm : m.rekey source target = some m') :
    m'.Registered := by
  refine ⟨(h.indexed.rekey hm).1, ?_⟩
  unfold ChildMap.rekey at hm
  split at hm
  · cases hm
  rename_i htarget
  split at hm
  · cases hm
  cases hm
  rw [List.map_append, List.map_singleton, ← List.concat_eq_append]
  refine (h.once.sublist (List.filter_sublist.map Prod.fst)).concat fun hmem => ?_
  exact not_mem_index (Bool.eq_false_iff.mpr htarget) ((List.filter_sublist.map Prod.fst).subset hmem)

theorem Registered.apply (h : m.Registered) (c : Change) : (c.apply m).Registered := by
  cases c with
  | insert node => exact h.insert node
  | rekey source target =>
    cases hm : m.rekey source target with
    | none => rwa [Change.apply, hm]
    | some m' =>
      rw [Change.apply, hm]
      exact h.rekey hm

theorem Registered.after (h : m.Registered) (changes : List Change) : (m.after changes).Registered := by
  induction changes generalizing m with
  | nil => exact h
  | cons c changes ih => exact ih (h.apply c)

theorem registered_ofChanges (changes : List Change) : (ofChanges changes).Registered :=
  registered_empty.after changes

/-- What the index holds is what it is asked for. -/
theorem Registered.mem_index_iff (h : m.Registered) : (sig, i) ∈ m.index ↔ m.position? sig = some i := by
  rw [position?, List.lookup_eq_some_iff]
  constructor
  · intro hmem
    obtain ⟨before, behind, hsplit⟩ := List.append_of_mem hmem
    refine ⟨before, behind, hsplit, fun entry hentry => ?_⟩
    have honce := h.once
    rw [hsplit, List.map_append, List.map_cons, List.nodup_append] at honce
    have hne := honce.2.2 entry.1 (List.mem_map_of_mem hentry) sig List.mem_cons_self
    exact bne_iff_ne.mpr (Ne.symm hne)
  · rintro ⟨before, behind, hsplit, -⟩
    rw [hsplit]
    exact List.mem_append_right before List.mem_cons_self

theorem Registered.inStep (h : m.Registered) : m.InStep := by
  refine ⟨h.indexed.nodup, (List.perm_ext_iff_of_nodup (h.once.of_map _) ?_).mpr fun (sig, i) => ?_⟩
  · exact (List.nodup_zipIdx_map_snd m.signatures).of_map _
  · rw [h.mem_index_iff, h.indexed sig i, List.mem_zipIdx_iff_getElem?, signatures, List.getElem?_map]
    rfl

/-- With all signatures distinct, the first child of a signature is the only one. -/
theorem Indexed.get?_eq_find? (h : m.Indexed) (sig : String) :
    m.get? sig = m.nodes.find? (·.signature == sig) := by
  cases hfind : m.nodes.find? (·.signature == sig) with
  | some x => exact h.get?_eq_some.mpr ⟨List.mem_of_find?_eq_some hfind, by simpa using List.find?_some hfind⟩
  | none =>
    rw [← Option.isNone_iff_eq_none, ← Option.isSome_eq_false_iff, ← Bool.not_eq_true, h.get?_isSome,
      h.contains_iff]
    intro hmem
    obtain ⟨x, hx, rfl⟩ := List.mem_map.mp hmem
    simpa using List.find?_eq_none.mp hfind x hx

theorem Indexed.position?_eq_findIdx? (h : m.Indexed) (sig : String) :
    m.position? sig = m.nodes.findIdx? (·.signature == sig) := by
  refine Option.ext fun i => ?_
  rw [h sig i, List.findIdx?_eq_some_iff_getElem, Option.map_eq_some_iff]
  constructor
  · rintro ⟨x, hx, rfl⟩
    obtain ⟨hi, rfl⟩ := List.getElem?_eq_some_iff.mp hx
    refine ⟨hi, by simp, fun j hj => ?_⟩
    have hlen : i < m.signatures.length := by simpa [signatures] using hi
    have hne := List.pairwise_iff_getElem.mp h.nodup j i (Nat.lt_trans hj hlen) hlen hj
    simpa [signatures] using hne
  · rintro ⟨hi, hsig, -⟩
    exact ⟨_, List.getElem?_eq_getElem hi, by simpa using hsig⟩

theorem Registered.answers (h : m.Registered) : m.Answers where
  get := h.indexed.get?_eq_find?
  contains _ := h.indexed.contains_iff
  position := h.indexed.position?_eq_findIdx?
  child _ := rfl
  count start := by
    rw [countPrefixed, ← List.countP_eq_length_filter, signatures, List.countP_map]
    rfl

theorem Indexed.insert_old (h : m.Indexed) (n : Node) :
    (m.insert n).1 = m.nodes.find? (·.signature == n.signature) := by
  rw [← h.get?_eq_find?, get?, ChildMap.insert, Node.signed_signature]
  cases m.position? n.signature <;> rfl

theorem Indexed.insert_nodes (h : m.Indexed) (n : Node) : (m.insert n).2.nodes =
    if n.signature ∈ m.signatures then n.superseding m.nodes else m.nodes ++ [n] := by
  cases hp : m.position? n.signature with
  | none =>
    have hfree : m.contains n.signature = false := by rw [contains, hp]; rfl
    rw [(h.insert hfree).1, if_neg]
    rw [← h.contains_iff, hfree]
    exact Bool.false_ne_true
  | some i =>
    have htaken : m.contains n.signature = true := by rw [contains, hp]; rfl
    rw [(h.replace hp).1, if_pos (h.contains_iff.mp htaken), ← h.replace_nodes hp]

theorem Indexed.isSome_rekey (h : m.Indexed) (source target : String) :
    (m.rekey source target).isSome = true ↔ source ∈ m.signatures ∧ target ∉ m.signatures := by
  rw [← h.contains_iff, ← h.contains_iff, contains, ChildMap.rekey]
  cases m.contains target <;> cases m.position? source <;> simp

theorem Indexed.nodes_of_rekey {m' : ChildMap Node} (h : m.Indexed) (hm : m.rekey source target = some m') :
    m'.nodes = m.nodes.map (renamed source target) := by
  obtain ⟨hsource, htarget⟩ := (h.isSome_rekey source target).mp (by rw [hm]; rfl)
  rw [← h.contains_iff, Bool.not_eq_true] at htarget
  obtain ⟨m₁, hm₁, hnodes⟩ := h.rekey_nodes (h.contains_iff.mpr hsource) htarget
  obtain rfl := Option.some.inj (hm₁.symm.trans hm)
  exact hnodes

/-- A child that a change is not about stays as it is, and where it is. -/
theorem Indexed.getElem?_apply (h : m.Indexed) {c : Change} (hx : m.nodes[i]? = some x)
    (hc : c.subject ≠ x.signature) : (c.apply m).nodes[i]? = some x := by
  cases c with
  | insert n =>
    rw [Change.apply, h.insert_nodes]
    split
    · rw [Node.superseding, List.getElem?_map, hx, Option.map_some]
      exact congrArg some (if_neg (Ne.symm hc))
    · rw [List.getElem?_append_left (List.getElem?_eq_some_iff.mp hx).1, hx]
  | rekey source target =>
    rw [Change.apply]
    cases hm : m.rekey source target with
    | none => exact hx
    | some m' =>
      rw [Option.getD_some, h.nodes_of_rekey hm, List.getElem?_map, hx, Option.map_some]
      exact congrArg some (if_neg (Ne.symm hc))

theorem Registered.getElem?_after (h : m.Registered) {changes : List Change} (hx : m.nodes[i]? = some x)
    (hc : ∀ c ∈ changes, c.subject ≠ x.signature) : (m.after changes).nodes[i]? = some x := by
  induction changes generalizing m with
  | nil => exact hx
  | cons c changes ih =>
    rw [List.forall_mem_cons] at hc
    exact ih (h.apply c) (h.indexed.getElem?_apply hx hc.1) hc.2

/-- Whatever was inserted and re-keyed, the index and the list of nodes tell the same, each change does to
the list what it should, and a child stays as it is, and where it is, until a change is about it. -/
theorem ofChanges_in_step (changes : List Change) :
    let m := ofChanges changes
    m.InStep ∧ m.Answers ∧
      (∀ n : Node, ((m.insert n).1.isSome = true ↔ n.signature ∈ m.signatures) ∧
        (m.insert n).1 = m.nodes.find? (·.signature == n.signature) ∧
        ((Change.insert n).apply m).nodes =
          if n.signature ∈ m.signatures then n.superseding m.nodes else m.nodes ++ [n]) ∧
      (∀ source target,
        ((m.rekey source target).isSome = true ↔ source ∈ m.signatures ∧ target ∉ m.signatures) ∧
        (∀ m', m.rekey source target = some m' → m'.nodes = m.nodes.map (renamed source target)) ∧
        (m.rekey source target = none → (Change.rekey source target).apply m = m)) ∧
      ∀ (later : List Change) (i : Nat) (x : Node), m.nodes[i]? = some x →
        (∀ c ∈ later, c.subject ≠ x.signature) → (ofChanges (changes ++ later)).nodes[i]? = some x := by
  intro m
  have hm : m.Registered := registered_ofChanges changes
  refine ⟨hm.inStep, hm.answers, fun n => ⟨?_, hm.indexed.insert_old n, hm.indexed.insert_nodes n⟩,
    fun source target => ⟨hm.indexed.isSome_rekey source target, fun m' hm' => ?_, fun hnone => ?_⟩,
    fun later i x hx hlater => ?_⟩
  · rw [hm.indexed.insert_old, ← hm.indexed.get?_eq_find?, hm.indexed.get?_isSome, hm.indexed.contains_iff]
  · exact hm.indexed.nodes_of_rekey hm'
  · rw [Change.apply, hnone, Option.getD_none]
  · rw [ofChanges, after, List.foldl_append]
    exact hm.getElem?_after hx hlater

/-- A child that moved to a free signature stays there, whatever is refused and replaced beside it. -/
theorem ofChanges_in_step_of_a_taken_signature :
    let leaf (sig : String) (line : Nat) : Node := .leaf ⟨sig, .funCall, ⟨0, 4⟩, line, none⟩
    let m := ofChanges [.insert (leaf "a" 1), .insert (leaf "b" 2), .rekey "a" "a:0", .rekey "b" "a:0",
      .insert (leaf "b" 3), .rekey "b" "b"]
    m.nodes = [leaf "a:0" 1, leaf "b" 3] ∧ m.index.Perm [("a:0", 0), ("b", 1)] ∧
      (m.after [.insert (leaf "c" 5), .rekey "b" "d"]).nodes[0]? = some (leaf "a:0" 1) := by
  intro leaf m
  have hnodes : m.nodes = [leaf "a:0" 1, leaf "b" 3] := rfl
  obtain ⟨hstep, -, -, -, hlater⟩ := ofChanges_in_step [.insert (leaf "a" 1), .insert (leaf "b" 2),
    .rekey "a" "a:0", .rekey "b" "a:0", .insert (leaf "b" 3), .rekey "b" "b"]
  refine ⟨hnodes, ?_, ?_⟩
  · have hindex : m.index.Perm m.signatures.zipIdx := hstep.index
    rwa [signatures, hnodes] at hindex
  · have hfirst : m.nodes[0]? = some (leaf "a:0" 1) := by rw [hnodes]; rfl
    have hkept := hlater [.insert (leaf "c" 5), .rekey "b" "d"] 0 (leaf "a:0" 1) hfirst
      (by simp [leaf, Change.subject, Node.signature, Node.head])
    rwa [ofChanges, after, List.foldl_append] at hkept

end ModWeave.ChildMap
