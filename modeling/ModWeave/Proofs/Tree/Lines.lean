import ModWeave.Proofs.Tree.Keys
import ModWeave.Proofs.Tree.Sameness

/-! Trees apart from the lines their nodes stand on. -/
namespace ModWeave

mutual

/-- The node, with no line told. -/
def Node.unlined : Node → Node
  | .leaf h => .leaf { h with line := 0 }
  | .container h braces nodes index => .container { h with line := 0 } braces (unlinedAll nodes) index

def unlinedAll : List Node → List Node
  | [] => []
  | n :: rest => n.unlined :: unlinedAll rest

end

mutual

def Construct.unlined : Construct → Construct
  | .leaf kind tag tokens _ firstArg => .leaf kind tag tokens 0 firstArg
  | .block kind tag tokens _ braces body => .block kind tag tokens 0 braces (unlinedBody body)

def unlinedBody : List Construct → List Construct
  | [] => []
  | c :: rest => c.unlined :: unlinedBody rest

end

theorem unlinedAll_eq_map (ns : List Node) : unlinedAll ns = ns.map Node.unlined := by
  induction ns with
  | nil => rfl
  | cons n ns ih => rw [unlinedAll, ih, List.map_cons]

theorem unlinedBody_append (cs ds : List Construct) :
    unlinedBody (cs ++ ds) = unlinedBody cs ++ unlinedBody ds := by
  induction cs with
  | nil => rfl
  | cons c cs ih => rw [List.cons_append, unlinedBody, ih, unlinedBody, List.cons_append]

theorem unlinedBody_toList {c c' : Option Construct}
    (h : c'.map Construct.unlined = c.map Construct.unlined) :
    unlinedBody c'.toList = unlinedBody c.toList := by
  cases c with
  | none =>
    obtain rfl : c' = none := by simpa using h
    rfl
  | some d =>
    obtain ⟨d', rfl, hd⟩ := Option.map_eq_some_iff.mp h
    simp only [Option.toList_some, unlinedBody, hd]

theorem keepsLabels_unlined : KeepsLabels Node.unlined where
  signature n := by cases n <;> rfl
  kind n := by cases n <;> rfl
  firstArg n := by cases n <;> rfl
  resign n sig := by cases n <;> rfl

mutual

/-- Without lines, constructs make the same nodes. -/
theorem Construct.node_unlined : (c : Construct) → c.unlined.node = c.node.unlined
  | .leaf .. => rfl
  | .block kind tag tokens line braces body => by
    have hbody := attachAll_unlined .empty body
    rw [Block.mapped_empty] at hbody
    simp only [Construct.unlined, Construct.node, Node.unlined, hbody, unlinedAll_eq_map]
    rfl

theorem attachAll_unlined (b : Block) : (cs : List Construct) →
    attachAll (b.mapped Node.unlined) (unlinedBody cs) = (attachAll b cs).mapped Node.unlined
  | [] => rfl
  | c :: rest => by
    rw [unlinedBody, attachAll, Construct.node_unlined, Block.attach_mapped keepsLabels_unlined,
      attachAll_unlined, attachAll]

end

/-- Trees of constructs that differ in nothing but their lines. -/
theorem ofConstructs_unlined {s s' : Source} {cs cs' : List Construct}
    (hs : s'.tokens.length = s.tokens.length) (hcs : unlinedBody cs' = unlinedBody cs) :
    (Tree.ofConstructs s' cs').root.unlined = (Tree.ofConstructs s cs).root.unlined := by
  have h := attachAll_unlined .empty cs
  have h' := attachAll_unlined .empty cs'
  rw [hcs, h] at h'
  have hnodes := congrArg (·.children.nodes) h'
  have hindex := congrArg (·.children.index) h'
  simp only [Block.children_mapped, ChildMap.mapped, ← unlinedAll_eq_map] at hnodes hindex
  simp only [Tree.ofConstructs, Node.unlined, hs, hnodes, hindex]

section Same

variable {s s' : Source} {n n' : Node}

/-- Nodes that differ in nothing but their lines have the same content in sources of the same lexemes. -/
theorem Node.Keyed.sameContent_of_unlined (h : n.Keyed)
    (hs : s'.tokens.map Token.content = s.tokens.map Token.content) (hn : n'.unlined = n.unlined) :
    sameContent s s' n n' := by
  have hslice (e : Extent) : sameTokens (s.slice e) (s'.slice e) = true := by
    simp only [sameTokens, Source.slice, List.map_take, List.map_drop, hs, beq_self_eq_true]
  induction h generalizing n' with
  | leaf head =>
    cases n' with
    | container => cases hn
    | leaf head' =>
      have htokens : head'.tokens = head.tokens := congrArg (·.tokens) hn
      rw [sameContent, htokens]
      exact hslice _
  | container head braces nodes index indexed below ih =>
    cases n' with
    | leaf => cases hn
    | container head' braces' nodes' index' =>
      simp only [Node.unlined, Node.container.injEq, unlinedAll_eq_map] at hn
      obtain ⟨hhead, rfl, hnodes, rfl⟩ := hn
      have htokens : head'.tokens = head.tokens := congrArg (·.tokens) hhead
      rw [sameContent_container]
      refine ⟨?_, ?_, fun n hmem => ?_⟩
      · have hheader : (Node.container head' braces' nodes' index').header =
            (Node.container head braces' nodes index').header := by
          cases braces' <;> simp [Node.header, Node.tokens, Node.head, Node.braces?, htokens]
        rw [sameHeader, hheader]
        exact hslice _
      · simpa using (congrArg List.length hnodes).symm
      · have hself : ChildMap.get? ⟨nodes, index'⟩ n.signature = some n :=
          indexed.get?_eq_some.mpr ⟨hmem, rfl⟩
        have htwin : (ChildMap.get? ⟨nodes', index'⟩ n.signature).map Node.unlined = some n.unlined := by
          rw [← ChildMap.get?_mapped, ChildMap.mapped, hnodes, ← Option.map_some, ← hself,
            ← ChildMap.get?_mapped, ChildMap.mapped]
        obtain ⟨twin, hget, heq⟩ := Option.map_eq_some_iff.mp htwin
        exact ⟨twin, hget, ih n hmem heq⟩

end Same

section Paths

variable {n n' : Node} {sig : String} {path : List String}

theorem Node.child?_unlined : n.unlined.child? sig = (n.child? sig).map Node.unlined := by
  cases n with
  | leaf => rfl
  | container head braces nodes index =>
    rw [Node.unlined, unlinedAll_eq_map]
    exact ChildMap.get?_mapped ⟨nodes, index⟩ sig

theorem Node.find?_unlined : n.unlined.find? path = (n.find? path).map Node.unlined := by
  induction path generalizing n with
  | nil => rfl
  | cons sig path ih =>
    rw [Node.find?_cons, Node.find?_cons, Node.child?_unlined]
    cases n.child? sig with
    | none => rfl
    | some m => exact ih

/-- The signatures of the children, none of a leaf. -/
def Node.childSignatures (n : Node) : List String := (n.children?.map ChildMap.signatures).getD []

theorem Node.childSignatures_unlined : n.unlined.childSignatures = n.childSignatures := by
  cases n with
  | leaf => rfl
  | container head braces nodes index =>
    rw [Node.unlined, unlinedAll_eq_map]
    exact ChildMap.signatures_mapped keepsLabels_unlined ⟨nodes, index⟩

/-- At every path the same signatures follow. -/
theorem childSignatures_eq_of_unlined (h : n'.unlined = n.unlined) (path : List String) :
    (n'.find? path).map Node.childSignatures = (n.find? path).map Node.childSignatures := by
  have hlevel (m : Node) : (m.find? path).map Node.childSignatures =
      (m.unlined.find? path).map Node.childSignatures := by
    rw [Node.find?_unlined, Option.map_map]
    congr 1
    funext k
    exact Node.childSignatures_unlined.symm
  rw [hlevel n', hlevel n, h]

end Paths

end ModWeave
