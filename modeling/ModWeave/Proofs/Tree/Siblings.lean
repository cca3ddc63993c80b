import ModWeave.Proofs.Tree.Disambiguation
import ModWeave.Proofs.Tree.Nesting
import ModWeave.Proofs.Tree.Order

/-! Children of one container as their siblings see them: what a signature tells of the kind, in which lane
a child stands, and what stands between it and the siblings in that lane. -/
namespace ModWeave

section Kinds

/-- The signature of a node tells its kind. -/
def Language.Labels (l : Language) (n : Node) : Prop :=
  match l with
  | .script => ∃ tag x, n.kind.Tags tag ∧ Marked x ∧ n.signature.toList = tag.toList ++ x
  | .markup => n.kind = .element

variable {l : Language} {n n' : Node}

/-- Nodes of one signature are of one kind, in whichever tree they stand. -/
theorem Language.Labels.kind_eq (h : l.Labels n) (h' : l.Labels n') (hsig : n.signature = n'.signature) :
    n.kind = n'.kind := by
  cases l with
  | markup => exact h.trans h'.symm
  | script =>
    obtain ⟨tag, x, htag, hx, heq⟩ := h
    obtain ⟨tag', x', htag', hx', heq'⟩ := h'
    exact htag.kind_unique htag' hx hx' (by rw [← heq, ← heq', hsig])

/-- There are clauses in scripts only. -/
theorem Language.Labels.script_of_clause (h : l.Labels n) (hclause : n.kind.isClause = true) : l = .script := by
  cases l with
  | script => rfl
  | markup =>
    rw [show n.kind = .element from h] at hclause
    cases hclause

/-- A child of a block of tagged constructs keeps its tag in front of its signature. -/
private theorem labels_of_tagged {body : List Construct} (h : Tagged (body.map Construct.node))
    (hn : n ∈ (attachAll .empty body).children.nodes) : Language.script.Labels n := by
  rw [eagerChildren_eq h] at hn
  obtain ⟨pre, m, post, hsplit, rfl⟩ := mem_signedFrom (mem_of_mem_latest hn)
  rw [hsplit] at h
  obtain ⟨x, hx, heq⟩ := eagerKey_marked (List.map Construct.node body) h.left h.middle
  refine ⟨m.signature, x, ?_, hx, ?_⟩
  · rw [Node.kind_resign]
    exact h.middle
  · rw [Node.signature_resign]
    exact heq

end Kinds

section Containers

variable {l : Language} {text : List Char} {t : Tree} {a : Node} {file body : List Construct}
  {p : List String} {sig : String} {m : ChildMap Node}

theorem Tree.Builds.blockIn (h : t.Builds file a body) : BlockIn file body := by
  induction h with
  | root => exact .file
  | inside _ hc _ _ ih => exact .inside ih hc

/-- In a file in which nothing takes the place of another, nothing does in any container. -/
theorem Tree.Builds.fresh (h : t.Builds file a body) (hnew : redefinesAmong .empty file = false) :
    redefinesAmong .empty body = false := by
  induction h with
  | root => exact hnew
  | inside _ hc _ _ ih => exact redefines_of_mem ih _ hc

/-- The constructs that a container of a parsed tree is built from. -/
private theorem exists_body (h : l.parse text = .ok t) (ha : t.find? p = some a)
    (hm : a.children? = some m) : ∃ file body, l.source text = .ok t.source ∧
      l.constructs t.source = .ok file ∧ t.Builds file a body ∧ Holding l t.source a body ∧
      m = (attachAll .empty body).children := by
  obtain ⟨file, hs, hfile, hroot⟩ := Language.holding_of_parse h
  obtain ⟨body, hbody⟩ := Tree.exists_builds hroot ha (by rw [Node.isContainer, hm]; rfl)
  have hheld := hbody.holding hroot
  exact ⟨file, body, hs, hfile, hbody, hheld, Option.some.inj (hm.symm.trans hheld.children)⟩

/-- What is known of the children of a container. -/
structure Node.Housed (l : Language) (s : Source) (a : Node) (m : ChildMap Node) : Prop
    extends a.Nests l s m where
  labels : ∀ n ∈ m.nodes, l.Labels n
  /-- There are no clauses outside of all braces. -/
  plain : a.braces? = none → ∀ n ∈ m.nodes, n.kind.isClause = false

theorem Language.housed_of_parse (h : l.parse text = .ok t) (ha : t.find? p = some a)
    (hm : a.children? = some m) : a.Housed l t.source m := by
  obtain ⟨file, body, hs, hfile, hbody, hheld, rfl⟩ := exists_body h ha hm
  have hnests := hheld.encloses.nests hm (fun n => exists_construct_of_mem) hheld.keyed hheld.arranged
    hheld.stop
  refine ⟨hnests, fun n hn => ?_, fun hbare n hn => ?_⟩
  · cases l with
    | script =>
      refine labels_of_tagged ?_ hn
      intro n hn
      obtain ⟨c, hc, rfl⟩ := List.mem_map.mp hn
      exact (hbody.blockIn.told (Script.told_of_statements hs hfile) c hc).tags
    | markup =>
      obtain ⟨c, hc, heq⟩ := exists_construct_of_mem hn
      rw [heq, Language.Labels, Node.kind_resign]
      exact hheld.encloses.elements rfl c hc
  · obtain ⟨c, hc, heq⟩ := exists_construct_of_mem hn
    rw [heq, Node.kind_resign]
    cases hbody with
    | inside above hin child built =>
      rw [built] at hbare
      cases hbare
    | root =>
      cases l with
      | script => exact Script.not_clause_of_statements hfile c hc
      | markup => rw [hheld.encloses.elements rfl c hc]; rfl

/-- What is known besides when no construct takes the place of another. -/
structure Node.InRow (l : Language) (s : Source) (a : Node) (m : ChildMap Node) : Prop
    extends a.Housed l s m where
  row : m.nodes.Pairwise fun x y => x.tokens.stop ≤ y.tokens.first
  /-- No clause stands behind the body of an element, where its end tag is. -/
  spare : ∀ clause, (clause = true → l = .script) → ∀ k, (a.lane clause).Has k →
    (∀ n ∈ m.nodes, ¬ n.tokens.Has k) → ∃ t ∈ s.tokens[k]?, l.isSpare t

theorem Language.inRow_of_parse (h : l.parse text = .ok t) (ha : t.find? p = some a)
    (hm : a.children? = some m)
    (hnew : ∀ cs, l.constructs t.source = .ok cs → redefinesAmong .empty cs = false) :
    a.InRow l t.source m := by
  have hhoused := housed_of_parse h ha hm
  obtain ⟨file, body, -, hfile, hbody, hheld, rfl⟩ := exists_body h ha hm
  have hfresh := replacesAmong_of_redefines (hbody.fresh (hnew file hfile))
  exact ⟨hhoused, (hhoused.toNests.fills hheld.encloses hfresh).row,
    fun clause hclause k => hheld.encloses.spare hfresh hclause⟩

/-- All containers but the root have braces. -/
theorem Language.braces_eq_none_iff (h : l.parse text = .ok t) (ha : t.find? p = some a)
    (hm : a.children? = some m) : a.braces? = none ↔ p = [] := by
  obtain rfl | ⟨p, sig, rfl⟩ := List.eq_nil_or_concat' p
  · obtain ⟨s, cs, -, -, rfl⟩ := parse_iff.mp h
    cases ha
    exact iff_of_true rfl rfl
  · refine iff_of_false (fun hbare => ?_) (by simp)
    obtain ⟨outer, houter, hchild⟩ := Option.bind_eq_some_iff.mp (Node.find?_concat.symm.trans ha)
    obtain ⟨m', hm', hget⟩ := Option.bind_eq_some_iff.mp hchild
    obtain ⟨file, body, -, -, -, -, rfl⟩ := exists_body h houter hm'
    obtain ⟨i, -, hi⟩ := Option.bind_eq_some_iff.mp hget
    obtain ⟨c, -, heq⟩ := exists_construct_of_mem (List.mem_of_getElem? hi)
    rw [heq] at hbare hm
    cases c with
    | leaf => cases hm
    | block => cases hbare

end Containers

section Lanes

variable {l : Language} {s : Source} {a : Node} {m : ChildMap Node} {k : Nat}

theorem Node.Nests.lane_inside (h : a.Nests l s m) (clause : Bool) : (a.lane clause).Inside a.tokens := by
  unfold Node.lane
  split
  · exact .refl _
  · rename_i b hb
    obtain ⟨hfirst, hlt, hstop⟩ := h.frame b hb
    split
    · exact ⟨by dsimp only; omega, Nat.le_refl _⟩
    · exact ⟨by dsimp only; omega, by dsimp only; omega⟩

/-- The lanes between braces and behind them have no token in common. -/
theorem Node.lane_unique {b : Braces} {clause clause' : Bool} (hb : a.braces? = some b)
    (hk : (a.lane clause).Has k) (hk' : (a.lane clause').Has k) : clause = clause' := by
  have htrue (h : (a.lane true).Has k) : b.closing < k := by
    rw [Node.lane_of_braces hb] at h
    exact h.1
  have hfalse (h : (a.lane false).Has k) : k < b.closing := by
    rw [Node.lane_of_braces hb] at h
    exact h.2
  cases clause <;> cases clause'
  · rfl
  · exact absurd (hfalse hk) (Nat.not_lt.mpr (Nat.le_of_lt (htrue hk')))
  · exact absurd (hfalse hk') (Nat.not_lt.mpr (Nat.le_of_lt (htrue hk)))
  · rfl

end Lanes

end ModWeave
