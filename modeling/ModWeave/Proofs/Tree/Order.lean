import ModWeave.Proofs.Tree.Arrangement

/-! Siblings in the order of the text. They are in it wherever no construct takes the place of another. -/
namespace ModWeave

/-- Where a child may stand: behind the opening brace, and as a clause behind the closing one. -/
structure Braces.Before (b : Braces) (n : Node) : Prop where
  opening : b.opening < n.tokens.first
  closing : n.kind.isClause = true → b.closing < n.tokens.first

/-- At every depth children stand one behind the other, clauses behind the body. -/
inductive Node.InOrder : Node → Prop
  | leaf (head : Head) : InOrder (.leaf head)
  | container (head : Head) (braces : Option Braces) (nodes : List Node)
      (index : List (String × Nat))
      (row : nodes.Pairwise fun m n => m.tokens.stop ≤ n.tokens.first)
      (nonempty : ∀ n ∈ nodes, n.tokens.first < n.tokens.stop)
      (behind : ∀ n ∈ nodes, ∀ b ∈ braces, b.Before n) (inner : ∀ n ∈ nodes, InOrder n) :
      InOrder (.container head braces nodes index)

@[simp] theorem Node.inOrder_resign (n : Node) (sig : String) : (n.resign sig).InOrder ↔ n.InOrder := by
  cases n with
  | leaf head => exact iff_of_true (.leaf _) (.leaf _)
  | container head braces nodes index =>
    constructor
    · rintro (_ | ⟨_, _, _, _, row, nonempty, behind, inner⟩)
      exact .container _ _ _ _ row nonempty behind inner
    · rintro (_ | ⟨_, _, _, _, row, nonempty, behind, inner⟩)
      exact .container _ _ _ _ row nonempty behind inner

theorem Braces.before_resign {b : Braces} {n : Node} (sig : String) :
    b.Before (n.resign sig) ↔ b.Before n := by
  constructor
  · rintro ⟨h, h'⟩
    rw [Node.tokens_resign] at h h'
    exact ⟨h, fun hk => h' (by rwa [Node.kind_resign])⟩
  · rintro ⟨h, h'⟩
    refine ⟨by rwa [Node.tokens_resign], fun hk => ?_⟩
    rw [Node.tokens_resign]
    exact h' (by rwa [Node.kind_resign] at hk)

theorem redefines_of_mem {b : Block} {cs : List Construct} (h : redefinesAmong b cs = false) :
    ∀ c ∈ cs, c.redefines = false := by
  induction cs generalizing b with
  | nil => simp
  | cons c cs ih =>
    simp only [redefinesAmong, Bool.or_eq_false_iff] at h
    exact List.forall_mem_cons.mpr ⟨h.1.1, ih h.2⟩

/-- Attached constructs that are in order are children in order, unless one takes another's place. -/
theorem inOrder_attachAll {head : Head} {braces : Option Braces} {cs : List Construct}
    (hnew : redefinesAmong .empty cs = false)
    (row : cs.Pairwise fun c d => c.node.tokens.stop ≤ d.node.tokens.first)
    (nonempty : ∀ c ∈ cs, c.node.tokens.first < c.node.tokens.stop)
    (behind : ∀ c ∈ cs, ∀ b ∈ braces, b.Before c.node) (inner : ∀ c ∈ cs, c.node.InOrder) :
    (Node.container head braces (attachAll .empty cs).children.nodes
      (attachAll .empty cs).children.index).InOrder := by
  obtain ⟨-, hnodes⟩ := indexed_attachAll ChildMap.indexed_empty (b := .empty)
    (replacesAmong_of_redefines hnew)
  have hnodes : (attachAll .empty cs).children.nodes.map (Node.resign "") =
      cs.map fun c => c.node.resign "" := hnodes
  have hall {P : Node → Prop} (hP : ∀ n, P (Node.resign "" n) ↔ P n) (hcs : ∀ c ∈ cs, P c.node) :
      ∀ n ∈ (attachAll .empty cs).children.nodes, P n := by
    intro n hn
    have hmem := List.mem_map_of_mem (f := Node.resign "") hn
    rw [hnodes] at hmem
    obtain ⟨c, hc, heq⟩ := List.mem_map.mp hmem
    rw [← hP, ← heq, hP]
    exact hcs c hc
  refine .container _ _ _ _ ?_ (hall (fun n => by rw [Node.tokens_resign]) nonempty)
    (hall (fun n => forall₂_congr fun b _ => Braces.before_resign "") behind)
    (hall (fun n => n.inOrder_resign "") inner)
  have hrow : (cs.map fun c => c.node.resign "").Pairwise fun m n => m.tokens.stop ≤ n.tokens.first := by
    rw [List.pairwise_map]
    simpa using row
  rw [← hnodes, List.pairwise_map] at hrow
  simpa using hrow

section Read

/-- The construct lies where it was read, and unless something in it takes the place of another it is in
order. -/
private def StandsInOrder (n : Nat) (ts : List Token) (c : Construct) (q : List Token) : Prop :=
  LiesAt n ts c q ∧ (ts.length ≤ n → q.length < ts.length → c.redefines = false → c.node.InOrder)

variable {l : Language} {n : Nat} {ts q : List Token} {cs : List Construct}

private theorem Run.lies (h : Run l (StandsInOrder n) ts cs q) : Run l (LiesAt n) ts cs q :=
  h.mono fun _ _ _ => And.left

private theorem Run.inOrder (h : Run l (StandsInOrder n) ts cs q) (hts : ts.length ≤ n)
    (hcs : ∀ c ∈ cs, c.redefines = false) : ∀ c ∈ cs, c.node.InOrder := by
  induction h with
  | nil => simp
  | skip passed _ ih => exact ih (Nat.le_trans (Nat.le_of_lt passed.length_lt) hts) hcs
  | cons first shorter _ ih =>
    rw [List.forall_mem_cons] at hcs
    exact List.forall_mem_cons.mpr ⟨first.2 hts shorter hcs.1, ih (by omega) hcs.2⟩

private theorem StandsInOrder.block {kind : NodeKind} {tag : String} {line : Nat} {k m e o r : List Token}
    {body more : List Construct} (hk : k.length ≤ ts.length) (hm : m.length < k.length)
    (hbody : Run l (StandsInOrder n) m body e) (hplain : ∀ c ∈ body, c.node.kind.isClause = false)
    (ho : o.length < e.length) (hmore : Run l (StandsInOrder n) o more r) (hr : q.length ≤ r.length) :
    StandsInOrder n ts (.block kind tag ⟨n - ts.length, n - q.length⟩ line
      ⟨n - k.length, n - e.length⟩ (body ++ more)) q := by
  refine ⟨.block hk hm hbody.lies ho hmore.lies hr, fun hts _ hnew => ?_⟩
  have he := hbody.length_le
  have hmore' := hmore.length_le
  obtain ⟨hinside, hrow, -⟩ := hbody.lies.row (by omega)
  obtain ⟨hinside', hrow', -⟩ := hmore.lies.row (by omega)
  have hnew : redefinesAmong .empty (body ++ more) = false := hnew
  have hold := redefines_of_mem hnew
  rw [List.forall_mem_append] at hold
  refine inOrder_attachAll hnew (List.pairwise_append.mpr ⟨hrow, hrow', fun c hc d hd => ?_⟩) ?_ ?_ ?_
  · have h1 := (hinside c hc).2.stop
    have h2 := (hinside' d hd).2.first
    dsimp only at h1 h2
    omega
  · exact List.forall_mem_append.mpr ⟨fun c hc => (hinside c hc).1, fun c hc => (hinside' c hc).1⟩
  · simp only [Option.mem_def, Option.some.injEq, forall_eq']
    refine List.forall_mem_append.mpr ⟨fun c hc => ?_, fun c hc => ?_⟩
    · have h1 := (hinside c hc).2.first
      dsimp only at h1
      refine ⟨by dsimp only; omega, fun hclause => ?_⟩
      rw [hplain c hc] at hclause
      cases hclause
    · have h1 := (hinside' c hc).2.first
      dsimp only at h1
      exact ⟨by dsimp only; omega, fun _ => by dsimp only; omega⟩
  · exact List.forall_mem_append.mpr
      ⟨hbody.inOrder (by omega) hold.1, hmore.inOrder (by omega) hold.2⟩

/-- A tree in which nothing takes another's place is in order. -/
theorem Language.inOrder_of_parse {l : Language} {text : List Char} {t : Tree}
    (h : l.parse text = .ok t)
    (hnew : ∀ cs, l.constructs t.source = .ok cs → redefinesAmong .empty cs = false) :
    t.root.InOrder := by
  obtain ⟨s, cs, hs, hcs, rfl⟩ := parse_iff.mp h
  have hrun : Run l (StandsInOrder s.tokens.length) s.tokens cs [] := by
    cases l with
    | script =>
      refine Script.run_of_statements ?_ ?_ hcs
      · rintro kind ts q c ⟨tag, first, k, -, -, rfl⟩
        exact ⟨fun _ _ => ⟨rfl, .leaf _⟩, fun _ _ _ => .leaf _⟩
      · intro kind tag ts k m e o q body more hopens hm hbody hplain ho hmore _
        exact .block hopens.length_le hm.length_lt hbody hplain ho.length_lt hmore (Nat.le_refl _)
    | markup =>
      refine Markup.run_of_elements ?_ ?_ hcs
      · rintro i name id ts q - -
        exact ⟨fun _ _ => ⟨rfl, .leaf _⟩, fun _ _ _ => .leaf _⟩
      · intro i name id ts k m e o q body hhead hm hbody hplain ho hend
        rw [← List.append_nil body]
        exact .block (Nat.le_of_lt hhead.length_lt) hm.length_lt hbody hplain ho.length_lt .nil
          (Nat.le_of_lt hend.length_lt)
  have hnew := hnew cs hcs
  obtain ⟨hinside, hrow, -⟩ := hrun.lies.row (Nat.le_refl _)
  exact inOrder_attachAll hnew hrow (fun c hc => (hinside c hc).1) (by simp)
    (hrun.inOrder (Nat.le_refl _) (redefines_of_mem hnew))

end Read

end ModWeave
