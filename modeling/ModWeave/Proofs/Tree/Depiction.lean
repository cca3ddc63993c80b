import ModWeave.Proofs.Tree.Indexed

/-! Nodes that depict forms: where the lexemes of a form stand in a source, there stands its node, and
the children depict the forms inside, each under its key. -/
namespace ModWeave

mutual

/-- The node is that of the form, which stands at token `i`. -/
inductive Depicts (s : Source) : Nat → Form → Node → Prop
  | leaf (i : Nat) (label : Label) (x : Lexeme) (ls : List Lexeme) (sig : String) :
      Depicts s i (.leaf label x ls)
        (.leaf ⟨sig, label.kind, ⟨i, i + 1 + ls.length⟩, s.lineAt i, label.firstArg⟩)
  | block (i : Nat) (label : Label) (header : List Lexeme) (opening : Lexeme) (body : List Form)
      (closing : Lexeme) (clauses : List Form) (trail : List Lexeme) (sig : String)
      (ns cs : List Node) (index : List (String × Nat))
      (statements : DepictsAll s (i + header.length + 1) body ns)
      (chain : DepictsAll s (i + header.length + 1 + (lexemesAll body).length + 1) clauses cs)
      (keys : (ns ++ cs).map Node.signature = keysOf (labelsOf body ++ labelsOf clauses))
      (indexed : ChildMap.Indexed ⟨ns ++ cs, index⟩)
      (fresh : labelsRedefine .empty 0 (labelsOf body ++ labelsOf clauses) = false) :
      Depicts s i (.block label header opening body closing clauses trail)
        (.container ⟨sig, label.kind, ⟨i, i + header.length + 1 + (lexemesAll body).length + 1 +
          (lexemesAll clauses).length + trail.length⟩, s.lineAt i, none⟩
          (some ⟨i + header.length, i + header.length + 1 + (lexemesAll body).length⟩)
          (ns ++ cs) index)

/-- The nodes are those of the forms that make constructs. The first form stands at token `i`. -/
inductive DepictsAll (s : Source) : Nat → List Form → List Node → Prop
  | nil (i : Nat) : DepictsAll s i [] []
  | stray (i : Nat) (x : Lexeme) {fs : List Form} {ns : List Node}
      (rest : DepictsAll s (i + 1) fs ns) : DepictsAll s i (.stray x :: fs) ns
  | solid {i : Nat} {f : Form} {n : Node} {fs : List Form} {ns : List Node}
      (first : Depicts s i f n) (rest : DepictsAll s (i + f.lexemes.length) fs ns) :
      DepictsAll s i (f :: fs) (n :: ns)

end

/-- The children of a container: statements from token `i` on, and clauses from token `k` on. -/
structure Inside (s : Source) (i k : Nat) (body clauses : List Form) (m : ChildMap Node) : Prop where
  split : ∃ ns cs, m.nodes = ns ++ cs ∧ DepictsAll s i body ns ∧ DepictsAll s k clauses cs
  keys : m.signatures = keysOf (labelsOf body ++ labelsOf clauses)
  indexed : m.Indexed
  fresh : labelsRedefine .empty 0 (labelsOf body ++ labelsOf clauses) = false

private theorem eq_resign_of_unsigned {n m : Node} (h : n.resign "" = m.resign "") :
    n = m.resign n.signature := by
  cases n <;> cases m <;> simp only [Node.resign, Node.leaf.injEq, Node.container.injEq,
    reduceCtorEq] at h ⊢
  · rename_i a b
    cases a
    cases b
    simp_all [Node.signature, Node.head]
  · rename_i a _ _ _ b _ _ _
    cases a
    cases b
    simp_all [Node.signature, Node.head]

/-- Constructs of which none takes another's place become children, in order. -/
private theorem split_of_constructs {body clauses : List Form}
    (hf : (anyRedefines body || anyRedefines clauses ||
      labelsRedefine .empty 0 (labelsOf body ++ labelsOf clauses)) = false) (s : Source) (i k : Nat)
    {m : ChildMap Node} (hm : (attachAll .empty (constructsAll s i 0 body ++
      constructsAll s k (labelsOf body).length clauses)).children = m) :
    m.signatures = keysOf (labelsOf body ++ labelsOf clauses) ∧ m.Indexed ∧
      ∃ ns cs, m.nodes = ns ++ cs ∧
        ns.map (Node.resign "") = (constructsAll s i 0 body).map (·.node.resign "") ∧
        cs.map (Node.resign "") =
          (constructsAll s k (labelsOf body).length clauses).map (·.node.resign "") := by
  have hnew : redefinesAmong .empty (constructsAll s i 0 body ++
      constructsAll s k (labelsOf body).length clauses) = false := by
    rw [redefinesAmong_append, redefinesAmong_constructsAll, redefinesAmong_constructsAll,
      attachAll_bare, Block.bare_empty]
    rw [labelsRedefine_append, Nat.zero_add] at hf
    grind
  obtain ⟨hidx, hnodes⟩ := indexed_attachAll ChildMap.indexed_empty (replacesAmong_of_redefines hnew)
  have hkeys := signatures_attachAll body clauses s i k
  have hempty : Block.empty.children.nodes.map (Node.resign "") = [] := rfl
  rw [hm] at hidx hkeys hnodes
  rw [hempty, List.nil_append, List.map_append] at hnodes
  exact ⟨hkeys, hidx, List.map_eq_append_iff.mp hnodes⟩

mutual

/-- The node of a form without redefinitions depicts it, under whatever signature. -/
theorem depicts_node (f : Form) (hf : f.redefines = false) (s : Source) (i j : Nat) (c : Construct)
    (hc : f.constructs s i j = [c]) (sig : String) : Depicts s i f (c.node.resign sig) := by
  cases f with
  | stray x => cases hc
  | leaf label x ls =>
    cases hc
    exact .leaf i label x ls sig
  | block label header opening body closing clauses trail =>
    cases hc
    simp only [Form.redefines] at hf
    generalize hm : (attachAll .empty (constructsAll s (i + header.length + 1) 0 body ++
      constructsAll s (i + header.length + 1 + (lexemesAll body).length + 1)
        (labelsOf body).length clauses)).children = m
    obtain ⟨hkeys, hidx, ns, cs, hsplit, hns, hcs⟩ := split_of_constructs hf _ _ _ hm
    simp only [Bool.or_eq_false_iff] at hf
    rw [Construct.node, Node.resign]
    simp only [hm]
    obtain ⟨nodes, index⟩ := m
    obtain rfl : nodes = ns ++ cs := hsplit
    exact .block i label header opening body closing clauses trail sig ns cs index
      (depictsAll_of_unsigned body hf.1.1 s _ _ ns hns)
      (depictsAll_of_unsigned clauses hf.1.2 s _ _ cs hcs) hkeys hidx hf.2

theorem depictsAll_of_unsigned (fs : List Form) (hf : anyRedefines fs = false) (s : Source)
    (i j : Nat) (ns : List Node)
    (h : ns.map (Node.resign "") = (constructsAll s i j fs).map (·.node.resign "")) :
    DepictsAll s i fs ns := by
  cases fs with
  | nil =>
    obtain rfl : ns = [] := by simpa [constructsAll] using h
    exact .nil i
  | cons f fs =>
    simp only [anyRedefines, Bool.or_eq_false_iff] at hf
    rw [constructsAll, List.map_append] at h
    cases f with
    | stray x => exact .stray i x (depictsAll_of_unsigned fs hf.2 s _ _ ns h)
    | leaf label x ls =>
      obtain ⟨n, ns, rfl, hn, hns⟩ := List.map_eq_cons_iff.mp h
      have hfirst := depicts_node (.leaf label x ls) hf.1 s i j _ rfl n.signature
      rw [← eq_resign_of_unsigned hn] at hfirst
      exact .solid hfirst (depictsAll_of_unsigned fs hf.2 s _ _ ns hns)
    | block label header opening body closing clauses trail =>
      obtain ⟨n, ns, rfl, hn, hns⟩ := List.map_eq_cons_iff.mp h
      have hfirst := depicts_node (.block label header opening body closing clauses trail) hf.1 s i j
        _ rfl n.signature
      rw [← eq_resign_of_unsigned hn] at hfirst
      exact .solid hfirst (depictsAll_of_unsigned fs hf.2 s _ _ ns hns)

end

/-- Constructs of which none takes another's place become children that depict their forms. -/
theorem inside_of_constructs {body clauses : List Form}
    (hf : (anyRedefines body || anyRedefines clauses ||
      labelsRedefine .empty 0 (labelsOf body ++ labelsOf clauses)) = false) (s : Source) (i k : Nat) :
    Inside s i k body clauses (attachAll .empty (constructsAll s i 0 body ++
      constructsAll s k (labelsOf body).length clauses)).children := by
  obtain ⟨hkeys, hidx, ns, cs, hsplit, hns, hcs⟩ := split_of_constructs hf s i k rfl
  simp only [Bool.or_eq_false_iff] at hf
  exact ⟨⟨ns, cs, hsplit, depictsAll_of_unsigned body hf.1.1 s i 0 ns hns,
    depictsAll_of_unsigned clauses hf.1.2 s k _ cs hcs⟩, hkeys, hidx, hf.2⟩

end ModWeave
