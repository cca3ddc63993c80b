import ModWeave.Proofs.Tree.Indexed

/-! What becomes of the children when one more construct is attached, redefinitions included. -/
namespace ModWeave

namespace ChildMap

variable {m : ChildMap Node} {n : Node} {i : Nat}

/-- A child whose signature is there already takes over the place. -/
theorem Indexed.replace (h : m.Indexed) (hi : m.position? n.signature = some i) :
    m.insert n = (m.nodes[i]?, ⟨m.nodes.set i n, m.index⟩) ∧ (m.insert n).2.Indexed := by
  have heq : m.insert n = (m.nodes[i]?, ⟨m.nodes.set i n, m.index⟩) := by
    simp only [ChildMap.insert, Node.signed_signature, hi]
  refine ⟨heq, ?_⟩
  rw [heq]
  intro sig j
  have hsame : (m.nodes.set i n)[j]?.map Node.signature = m.nodes[j]?.map Node.signature := by
    by_cases hij : i = j
    · subst hij
      have hold := (h n.signature i).mp hi
      obtain ⟨x, hx, -⟩ := Option.map_eq_some_iff.mp hold
      rw [hold, List.getElem?_set_self (List.getElem?_eq_some_iff.mp hx).1, Option.map_some]
    · rw [List.getElem?_set_ne hij]
  show m.position? sig = some j ↔ (m.nodes.set i n)[j]?.map Node.signature = some sig
  rw [hsame]
  exact h sig j

end ChildMap

namespace Block

variable {b : Block} {n : Node}

/-- An attached node stands behind the others or in the place of one of them. -/
theorem attach_cases (h : b.children.Indexed) (n : Node) : (b.attach n).children.Indexed ∧
    ((b.attach n).children.nodes.map (Node.resign "") =
        b.children.nodes.map (Node.resign "") ++ [n.resign ""] ∨
      ∃ i, (b.attach n).children.nodes.map (Node.resign "") =
        (b.children.nodes.map (Node.resign "")).set i (n.resign "")) := by
  obtain ⟨hk, hnodes⟩ := indexed_key h n
  show ((b.key n).2.children.insert (n.resign (b.key n).1)).2.Indexed ∧ _
  cases hp : (b.key n).2.children.position? (n.resign (b.key n).1).signature with
  | none =>
    have hfree : (b.key n).2.children.contains (n.resign (b.key n).1).signature = false := by
      rw [ChildMap.contains, hp]
      rfl
    obtain ⟨hins, hidx⟩ := hk.insert hfree
    refine ⟨hidx, .inl ?_⟩
    show ((b.key n).2.children.insert (n.resign (b.key n).1)).2.nodes.map (Node.resign "") = _
    rw [hins, List.map_append, hnodes, List.map_singleton, Node.resign_resign]
  | some i =>
    obtain ⟨hins, hidx⟩ := hk.replace hp
    refine ⟨hidx, .inr ⟨i, ?_⟩⟩
    show ((b.key n).2.children.insert (n.resign (b.key n).1)).2.nodes.map (Node.resign "") = _
    rw [hins, List.map_set, hnodes, Node.resign_resign]

/-- What holds of the children and of the attached node holds of all children afterwards. -/
theorem forall_attach {P : Node → Prop} (hP : ∀ n sig, P (Node.resign sig n) ↔ P n)
    (h : b.children.Indexed) (hold : ∀ m ∈ b.children.nodes, P m) (hn : P n) :
    ∀ m ∈ (b.attach n).children.nodes, P m := by
  intro m hm
  rw [← hP m ""]
  have hmem := List.mem_map_of_mem (f := Node.resign "") hm
  have hunsigned {x : Node} (hx : x ∈ b.children.nodes.map (Node.resign "")) : P x := by
    obtain ⟨y, hy, rfl⟩ := List.mem_map.mp hx
    exact (hP y "").mpr (hold y hy)
  obtain ⟨-, hcase | ⟨i, hcase⟩⟩ := attach_cases h n
  · rw [hcase, List.mem_append, List.mem_singleton] at hmem
    rcases hmem with hmem | hmem
    · exact hunsigned hmem
    · rw [hmem]
      exact (hP n "").mpr hn
  · rw [hcase] at hmem
    rcases List.mem_or_eq_of_mem_set hmem with hmem | hmem
    · exact hunsigned hmem
    · rw [hmem]
      exact (hP n "").mpr hn

end Block

/-- What holds of the children and of the nodes of constructs holds of all children once the
constructs are attached. -/
theorem forall_attachAll {P : Node → Prop} (hP : ∀ n sig, P (Node.resign sig n) ↔ P n) {b : Block}
    {cs : List Construct} (h : b.children.Indexed) (hold : ∀ m ∈ b.children.nodes, P m)
    (hcs : ∀ c ∈ cs, P c.node) :
    (attachAll b cs).children.Indexed ∧ ∀ m ∈ (attachAll b cs).children.nodes, P m := by
  induction cs generalizing b with
  | nil => exact ⟨h, hold⟩
  | cons c cs ih =>
    rw [List.forall_mem_cons] at hcs
    exact ih (Block.attach_cases h c.node).1 (Block.forall_attach hP h hold hcs.1) hcs.2

/-- At every depth each child is found under its own signature, and nothing else is found. -/
inductive Node.Keyed : Node → Prop
  | leaf (head : Head) : Keyed (.leaf head)
  | container (head : Head) (braces : Option Braces) (nodes : List Node)
      (index : List (String × Nat)) (indexed : ChildMap.Indexed ⟨nodes, index⟩)
      (below : ∀ n ∈ nodes, Keyed n) : Keyed (.container head braces nodes index)

@[simp] theorem Node.keyed_resign (n : Node) (sig : String) : (n.resign sig).Keyed ↔ n.Keyed := by
  cases n with
  | leaf head => exact iff_of_true (.leaf _) (.leaf _)
  | container head braces nodes index =>
    constructor
    · rintro ⟨⟩
      exact .container _ _ _ _ ‹_› ‹_›
    · rintro ⟨⟩
      exact .container _ _ _ _ ‹_› ‹_›

mutual

theorem Construct.keyed_node (c : Construct) : c.node.Keyed := by
  cases c with
  | leaf kind tag tokens line firstArg => exact .leaf _
  | block kind tag tokens line braces body =>
    have hbody := forall_attachAll (fun n sig => n.keyed_resign sig) ChildMap.indexed_empty
      (b := .empty) (by simp [Block.empty, ChildMap.empty]) (keyed_nodes body)
    exact .container _ _ _ _ hbody.1 hbody.2

theorem keyed_nodes (cs : List Construct) : ∀ c ∈ cs, c.node.Keyed := by
  cases cs with
  | nil => simp
  | cons c cs => exact List.forall_mem_cons.mpr ⟨c.keyed_node, keyed_nodes cs⟩

end

theorem Tree.keyed_ofConstructs (s : Source) (cs : List Construct) : (ofConstructs s cs).root.Keyed := by
  have hroot := forall_attachAll (fun n sig => n.keyed_resign sig) ChildMap.indexed_empty
    (b := .empty) (by simp [Block.empty, ChildMap.empty]) (keyed_nodes cs)
  exact .container _ _ _ _ hroot.1 hroot.2

end ModWeave
