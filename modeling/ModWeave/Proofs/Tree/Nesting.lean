import Mathlib.Data.List.Induction
import ModWeave.Proofs.Tree.Arrangement

/-! How the children of a container stand in the tokens and in the text: statements between its braces and
clauses behind them, none reaching into another. As long as no construct takes the place of another, they
stand in order and leave out nothing but a stray `;`. -/
namespace ModWeave

/-- The sign in front of a body. -/
def Language.openingSign : Language → String
  | .script => "\x7b"
  | .markup => ">"

/-- The sign behind a body. -/
def Language.closingSign : Language → String
  | .script => "\x7d"
  | .markup => "</"

/-- The token at a position belongs to the range. -/
def Extent.Has (e : Extent) (k : Nat) : Prop := e.first ≤ k ∧ k < e.stop

/-- The tokens that a container has for its clauses, or else for its other children. All of a root are
for any child. -/
def Node.lane (a : Node) (clause : Bool) : Extent :=
  match a.braces? with
  | none => a.tokens
  | some b => if clause then ⟨b.closing + 1, a.tokens.stop⟩ else ⟨b.opening + 1, b.closing⟩

/-- The containers of a tree with the constructs they are built from: the root with those of the source,
any other with the body of its block. -/
inductive Tree.Builds (t : Tree) (file : List Construct) : Node → List Construct → Prop
  | root : Builds t file t.root file
  | inside {a n : Node} {outer body : List Construct} {sig : String} {kind : NodeKind} {tag : String}
      {tokens : Extent} {line : Nat} {braces : Braces} (above : Builds t file a outer)
      (hc : .block kind tag tokens line braces body ∈ outer) (child : a.child? sig = some n)
      (built : n = (Construct.block kind tag tokens line braces body).node.resign sig) :
      Builds t file n body

/-- The children of a container are found under signatures of their own and stand apart, each in its
lane. -/
structure Node.Nests (l : Language) (s : Source) (a : Node) (m : ChildMap Node) : Prop where
  nodup : m.signatures.Nodup
  found : ∀ n ∈ m.nodes, m.get? n.signature = some n
  opening : ∀ b ∈ a.braces?, ∃ t ∈ s.tokens[b.opening]?, t.isPunct l.openingSign
  closing : ∀ b ∈ a.braces?, ∃ t ∈ s.tokens[b.closing]?, t.isPunct l.closingSign
  frame : ∀ b ∈ a.braces?, a.tokens.first ≤ b.opening ∧ b.opening < b.closing ∧ b.closing < a.tokens.stop
  nonempty : ∀ n ∈ m.nodes, n.tokens.first < n.tokens.stop ∧ n.tokens.stop ≤ s.tokens.length
  apart : m.nodes.Pairwise fun x y => x.tokens.Apart y.tokens
  lane : ∀ n ∈ m.nodes, n.tokens.Inside (a.lane n.kind.isClause)
  inside : ∀ n ∈ m.nodes, n.tokens.Inside a.tokens

/-- The bytes of children start and end between characters, and nest as the tokens do. -/
structure Node.NestsInText (s : Source) (a : Node) (m : ChildMap Node) : Prop where
  boundary : ∀ n, n = a ∨ n ∈ m.nodes → s.Boundary (n.span s).1 ∧ s.Boundary (n.span s).2
  nonempty : ∀ n ∈ m.nodes, (n.span s).1 < (n.span s).2
  apart : m.nodes.Pairwise fun x y => (x.span s).2 ≤ (y.span s).1 ∨ (y.span s).2 ≤ (x.span s).1
  /-- Between the token in front of the lane and the one behind it. -/
  lane : ∀ n ∈ m.nodes, s.endAt (a.lane n.kind.isClause).first ≤ (n.span s).1 ∧
    (n.span s).2 ≤ s.startAt (a.lane n.kind.isClause).stop
  inside : ∀ n ∈ m.nodes, (a.span s).1 ≤ (n.span s).1 ∧ (n.span s).2 ≤ (a.span s).2

/-- Children stand in order, and each token of the body belongs to one of them or is a stray `;` of a
script. -/
structure Node.Fills (l : Language) (s : Source) (a : Node) (m : ChildMap Node) : Prop where
  row : m.nodes.Pairwise fun x y => x.tokens.stop ≤ y.tokens.first
  covered : ∀ k, (a.lane false).Has k → (∃! n, n ∈ m.nodes ∧ n.tokens.Has k) ∨
    l = .script ∧ (∀ n ∈ m.nodes, ¬ n.tokens.Has k) ∧ ∃ t ∈ s.tokens[k]?, t.isPunct ";"

section Constructs

/-- What is known of the constructs of a container before they are attached. -/
structure Node.Encloses (l : Language) (s : Source) (a : Node) (body : List Construct) : Prop where
  opening : ∀ b ∈ a.braces?, ∃ t ∈ s.tokens[b.opening]?, t.isPunct l.openingSign
  closing : ∀ b ∈ a.braces?, ∃ t ∈ s.tokens[b.closing]?, t.isPunct l.closingSign
  lane : ∀ c ∈ body, c.node.tokens.Inside (a.lane c.node.kind.isClause)
  row : body.Pairwise fun c d => c.node.tokens.stop ≤ d.node.tokens.first
  /-- Behind the body of an element stands its end tag, which no construct has. -/
  covered : ∀ clause, (clause = true → l = .script) → ∀ k, (a.lane clause).Has k →
    (∃ c ∈ body, c.node.tokens.Has k) ∨ ∃ t ∈ s.tokens[k]?, l.isSpare t
  elements : l = .markup → ∀ c ∈ body, c.node.kind = .element

/-- At every depth a block encloses its body. -/
inductive Construct.Nests (l : Language) (s : Source) : Construct → Prop
  | leaf (kind : NodeKind) (tag : String) (tokens : Extent) (line : Nat) (firstArg : Option String) :
      Nests l s (.leaf kind tag tokens line firstArg)
  | block {kind : NodeKind} {tag : String} {tokens : Extent} {line : Nat} {braces : Braces}
      {body : List Construct}
      (encloses : (Construct.block kind tag tokens line braces body).node.Encloses l s body)
      (inner : ∀ c ∈ body, Nests l s c) : Nests l s (.block kind tag tokens line braces body)

variable {l : Language} {s : Source} {a n : Node} {body : List Construct} {sig : String}

theorem Node.lane_of_braces {b : Braces} (hb : a.braces? = some b) (clause : Bool) : a.lane clause =
    if clause then ⟨b.closing + 1, a.tokens.stop⟩ else ⟨b.opening + 1, b.closing⟩ := by
  unfold Node.lane
  rw [hb]

theorem Node.lane_resign (a : Node) (sig : String) : (a.resign sig).lane = a.lane := by
  cases a <;> rfl

theorem Node.Encloses.resign (h : a.Encloses l s body) (sig : String) :
    (a.resign sig).Encloses l s body := by
  have hlane := a.lane_resign sig
  cases a <;> exact ⟨h.opening, h.closing, hlane ▸ h.lane, h.row, hlane ▸ h.covered, h.elements⟩

/-- Elements never take the place of each other. -/
theorem replacesAmong_elements {b : Block} {cs : List Construct} (hb : b.children.Indexed)
    (h : ∀ c ∈ cs, c.node.kind = .element) : replacesAmong b cs = false := by
  induction cs generalizing b with
  | nil => rfl
  | cons c cs ih =>
    rw [List.forall_mem_cons] at h
    have hc : b.replaces c.node = false := by
      rw [← Bool.not_eq_true, Block.replaces_iff hb,
        Block.not_replaces hb (by rw [h.1]; decide)]
      exact Bool.false_ne_true
    rw [replacesAmong, hc, ih (Block.attach_cases hb c.node).1 h.2, Bool.or_false]

end Constructs

section Read

variable {l : Language} {s : Source} {ts q : List Token} {cs : List Construct}

theorem Source.getElem?_of_suffix {t : Token} (h : t :: ts <:+ s.tokens) :
    s.tokens[s.tokens.length - (t :: ts).length]? = some t := by
  obtain ⟨u, hu⟩ := h
  rw [← hu, List.length_append, Nat.add_sub_cancel, List.getElem?_append_right (Nat.le_refl _), Nat.sub_self]
  rfl

theorem Takes.at {p : Token → Bool} (h : Takes p ts q) (hts : ts <:+ s.tokens) :
    ∃ t ∈ s.tokens[s.tokens.length - ts.length]?, p t := by
  obtain ⟨t, rfl, ht⟩ := h
  exact ⟨t, Source.getElem?_of_suffix hts, ht⟩

/-- The construct lies where it was read, and nests in the source it was read from. -/
private def NestsAt (l : Language) (s : Source) (ts : List Token) (c : Construct) (q : List Token) : Prop :=
  LiesAt s.tokens.length ts c q ∧
    (ts <:+ s.tokens → q <:+ ts ∧ c.Nests l s ∧ (l = .markup → c.node.kind = .element))

private theorem Run.liesAt (h : Run l (NestsAt l s) ts cs q) : Run l (LiesAt s.tokens.length) ts cs q :=
  h.mono fun _ _ _ => And.left

/-- Constructs that are read one behind the other leave out only spare tokens. -/
private theorem Run.nests (h : Run l (NestsAt l s) ts cs q) (hts : ts <:+ s.tokens) :
    q <:+ ts ∧ (∀ c ∈ cs, c.Nests l s ∧ (l = .markup → c.node.kind = .element)) ∧
      ∀ k, s.tokens.length - ts.length ≤ k → k < s.tokens.length - q.length →
        (∃ c ∈ cs, c.node.tokens.Has k) ∨ ∃ t ∈ s.tokens[k]?, l.isSpare t := by
  induction h with
  | nil => exact ⟨List.suffix_rfl, by simp, fun k hfirst hstop => by omega⟩
  | @skip ts m q cs passed more ih =>
    obtain ⟨hq, hcs, hcovered⟩ := ih (passed.suffix.trans hts)
    refine ⟨hq.trans passed.suffix, hcs, fun k hfirst hstop => ?_⟩
    have hlen : ts.length = m.length + 1 := by
      obtain ⟨t, rfl, -⟩ := passed
      rfl
    obtain rfl | hk := Nat.eq_or_lt_of_le hfirst
    · exact .inr (passed.at hts)
    · exact hcovered k (by omega) hstop
  | @cons ts m q c cs first shorter more ih =>
    have htokens := (first.1 hts.length_le shorter).1
    obtain ⟨hm, hc⟩ := first.2 hts
    obtain ⟨hq, hcs, hcovered⟩ := ih (hm.trans hts)
    refine ⟨hq.trans hm, List.forall_mem_cons.mpr ⟨hc, hcs⟩, fun k hfirst hstop => ?_⟩
    rcases Nat.lt_or_ge k (s.tokens.length - m.length) with hk | hk
    · exact .inl ⟨c, List.mem_cons_self, by rw [htokens]; exact ⟨hfirst, hk⟩⟩
    · exact (hcovered k hk hstop).imp_left fun ⟨d, hd, hk⟩ => ⟨d, List.mem_cons_of_mem _ hd, hk⟩

/-- A block nests when what is read between its braces and behind them does. -/
private theorem NestsAt.block {kind : NodeKind} {tag : String} {line : Nat} {k m e o r : List Token}
    {body more : List Construct} (hk : k <:+ ts) (hm : Takes (·.isPunct l.openingSign) k m)
    (hbody : Run l (NestsAt l s) m body e) (hplain : ∀ c ∈ body, c.node.kind.isClause = false)
    (ho : Takes (·.isPunct l.closingSign) e o) (hmore : Run l (NestsAt l s) o more r)
    (hclauses : ∀ c ∈ more, c.node.kind.isClause = true) (hq : q <:+ r) (hend : l = .script → q = r)
    (hkind : l = .markup → kind = .element) :
    NestsAt l s ts (.block kind tag ⟨s.tokens.length - ts.length, s.tokens.length - q.length⟩ line
      ⟨s.tokens.length - k.length, s.tokens.length - e.length⟩ (body ++ more)) q := by
  refine ⟨.block hk.length_le hm.length_lt hbody.liesAt ho.length_lt hmore.liesAt hq.length_le,
    fun hts => ?_⟩
  have hks := hk.trans hts
  have hms := hm.suffix.trans hks
  obtain ⟨hem, hinner, hcovered⟩ := hbody.nests hms
  have hes := hem.trans hms
  have hos := ho.suffix.trans hes
  obtain ⟨hro, hinner', hcovered'⟩ := hmore.nests hos
  obtain ⟨hin, hrow, -⟩ := hbody.liesAt.row hms.length_le
  obtain ⟨hin', hrow', -⟩ := hmore.liesAt.row hos.length_le
  have hmlen : k.length = m.length + 1 := by
    obtain ⟨t, rfl, -⟩ := hm
    rfl
  have holen : e.length = o.length + 1 := by
    obtain ⟨t, rfl, -⟩ := ho
    rfl
  have hkn := hks.length_le
  have hen := hes.length_le
  refine ⟨hq.trans (hro.trans (ho.suffix.trans (hem.trans (hm.suffix.trans hk)))),
    .block ⟨?_, ?_, ?_, ?_, ?_, ?_⟩ ?_, hkind⟩
  · rintro _ ⟨⟩
    exact hm.at hks
  · rintro _ ⟨⟩
    exact ho.at hes
  · refine List.forall_mem_append.mpr ⟨fun c hc => ?_, fun c hc => ?_⟩
    · obtain ⟨-, hfirst, hstop⟩ := hin c hc
      rw [hplain c hc]
      exact ⟨by show _ - k.length + 1 ≤ _; dsimp only at hfirst; omega, hstop⟩
    · obtain ⟨-, hfirst, hstop⟩ := hin' c hc
      have hqr := hq.length_le
      rw [hclauses c hc]
      refine ⟨?_, ?_⟩
      · show s.tokens.length - e.length + 1 ≤ _
        dsimp only at hfirst
        omega
      · show _ ≤ s.tokens.length - q.length
        dsimp only at hstop
        omega
  · refine List.pairwise_append.mpr ⟨hrow, hrow', fun c hc d hd => ?_⟩
    have h1 := (hin c hc).2.stop
    have h2 := (hin' d hd).2.first
    dsimp only at h1 h2
    omega
  · intro clause hscript i hi
    have hwiden {cs : List Construct} (hcs : ∀ c ∈ cs, c ∈ body ++ more) (h : ∃ c ∈ cs, c.node.tokens.Has i) :
        ∃ c ∈ body ++ more, c.node.tokens.Has i := by
      obtain ⟨c, hc, hi⟩ := h
      exact ⟨c, hcs c hc, hi⟩
    cases clause with
    | false =>
      have hfirst : s.tokens.length - k.length + 1 ≤ i := hi.1
      exact (hcovered i (by omega) hi.2).imp_left (hwiden fun c => List.mem_append_left _)
    | true =>
      have hfirst : s.tokens.length - e.length + 1 ≤ i := hi.1
      have hstop : i < s.tokens.length - q.length := hi.2
      rw [hend (hscript rfl)] at hstop
      exact (hcovered' i (by omega) hstop).imp_left (hwiden fun c => List.mem_append_right _)
  · intro hl
    exact List.forall_mem_append.mpr ⟨fun c hc => (hinner c hc).2 hl, fun c hc => (hinner' c hc).2 hl⟩
  · exact List.forall_mem_append.mpr ⟨fun c hc => (hinner c hc).1, fun c hc => (hinner' c hc).1⟩

end Read

section Attach

variable {l : Language} {s : Source} {a n : Node} {m : ChildMap Node} {cs : List Construct}

/-- Each child is one of the attached constructs under a signature of its own. -/
theorem exists_construct_of_mem (hn : n ∈ (attachAll .empty cs).children.nodes) :
    ∃ c ∈ cs, n = c.node.resign n.signature := by
  have hall := (forall_attachAll (P := fun n => ∃ c ∈ cs, n.resign "" = c.node.resign "")
    (fun n sig => by rw [Node.resign_resign]) ChildMap.indexed_empty (b := .empty)
    (by simp [Block.empty, ChildMap.empty]) fun c hc => ⟨c, hc, rfl⟩).2
  obtain ⟨c, hc, heq⟩ := hall n hn
  refine ⟨c, hc, ?_⟩
  have hself : n.resign n.signature = n := by cases n <;> rfl
  have := congrArg (Node.resign n.signature) heq
  rwa [Node.resign_resign, Node.resign_resign, hself] at this

theorem Node.Encloses.nests (h : a.Encloses l s cs) (hm : a.children? = some m)
    (hcs : ∀ n ∈ m.nodes, ∃ c ∈ cs, n = c.node.resign n.signature) (hkeyed : a.Keyed)
    (harranged : a.Arranged) (hin : a.tokens.stop ≤ s.tokens.length) : a.Nests l s m := by
  have hindexed := hkeyed.indexed hm
  cases harranged with
  | leaf => cases hm
  | container head braces nodes index frame apart held inner =>
    cases hm
    refine ⟨hindexed.nodup, fun n hn => hindexed.get?_eq_some.mpr ⟨hn, rfl⟩, h.opening, h.closing, frame,
      fun n hn => ⟨(held n hn).nonempty, Nat.le_trans (held n hn).inside.stop hin⟩,
      List.pairwise_map.mp apart, fun n hn => ?_, fun n hn => (held n hn).inside⟩
    obtain ⟨c, hc, heq⟩ := hcs n hn
    rw [heq, Node.tokens_resign, Node.kind_resign]
    exact h.lane c hc

theorem Source.LaidOut.boundary_byteRange (h : s.LaidOut) (e : Extent) :
    s.Boundary (s.byteRange e).1 ∧ s.Boundary (s.byteRange e).2 := by
  obtain ⟨first, stop⟩ := e
  rcases Nat.lt_or_ge first stop with hlt | hge
  · rw [Source.byteRange_of_lt hlt]
    exact ⟨h.boundary_startAt first, h.boundary_endAt stop⟩
  · rw [Source.byteRange, if_neg (Nat.not_lt.mpr hge)]
    exact ⟨h.boundary_startAt first, h.boundary_startAt first⟩

/-- In a text, nodes nest as in its tokens. -/
theorem Node.Nests.inText (h : a.Nests l s m) (hlaid : s.LaidOut) : a.NestsInText s m := by
  have hspan {n : Node} (hn : n ∈ m.nodes) : n.span s = (s.startAt n.tokens.first, s.endAt n.tokens.stop) :=
    Source.byteRange_of_lt (h.nonempty n hn).1
  refine ⟨fun n _ => hlaid.boundary_byteRange n.tokens, fun n hn => ?_, ?_, fun n hn => ?_, fun n hn => ?_⟩
  · obtain ⟨hlt, hstop⟩ := h.nonempty n hn
    rw [hspan hn]
    exact hlaid.startAt_lt_endAt_of_lt hlt (Nat.lt_of_lt_of_le hlt hstop)
  · refine h.apart.imp_of_mem fun hx hy hxy => ?_
    rw [hspan hx, hspan hy]
    exact hxy.imp hlaid.endAt_le_startAt_of_le hlaid.endAt_le_startAt_of_le
  · obtain ⟨hfirst, hstop⟩ := h.lane n hn
    rw [hspan hn]
    exact ⟨hlaid.endAt_le_startAt_of_le hfirst, hlaid.endAt_le_startAt_of_le hstop⟩
  · obtain ⟨hfirst, hstop⟩ := h.inside n hn
    have hlt := (h.nonempty n hn).1
    have hlt' : a.tokens.first < a.tokens.stop := by omega
    have ha : a.span s = (s.startAt a.tokens.first, s.endAt a.tokens.stop) :=
      Source.byteRange_of_lt hlt'
    rw [hspan hn, ha]
    exact ⟨hlaid.startAt_mono hfirst, hlaid.endAt_mono hstop⟩

/-- At most one child has a token. -/
theorem Node.Nests.unique {x y : Node} {k : Nat} (h : a.Nests l s m) (hx : x ∈ m.nodes) (hy : y ∈ m.nodes)
    (hxk : x.tokens.Has k) (hyk : y.tokens.Has k) : x = y := by
  by_contra hne
  have hsymm : Std.Symm fun x y : Node => x.tokens.Apart y.tokens := ⟨fun _ _ => Extent.Apart.symm⟩
  obtain ⟨hx1, hx2⟩ := hxk
  obtain ⟨hy1, hy2⟩ := hyk
  rcases h.apart.forall hx hy hne with hxy | hxy <;> omega

/-- Where none of the children has a token of a lane, the token is a spare one, as long as none of them took
the place of another. -/
theorem Node.Encloses.spare (hcs : a.Encloses l s cs) (hnew : replacesAmong .empty cs = false) {clause : Bool}
    (hclause : clause = true → l = .script) {k : Nat} (hk : (a.lane clause).Has k)
    (hnone : ∀ n ∈ (attachAll .empty cs).children.nodes, ¬ n.tokens.Has k) : ∃ t ∈ s.tokens[k]?, l.isSpare t := by
  obtain ⟨-, hnodes⟩ := indexed_attachAll ChildMap.indexed_empty (b := .empty) hnew
  have hnodes : (attachAll .empty cs).children.nodes.map (Node.resign "") =
      cs.map fun c => c.node.resign "" := hnodes
  refine (hcs.covered clause hclause k hk).resolve_left ?_
  rintro ⟨c, hc, hck⟩
  have hmem := List.mem_map_of_mem (f := fun c : Construct => c.node.resign "") hc
  rw [← hnodes] at hmem
  obtain ⟨n, hn, heq⟩ := List.mem_map.mp hmem
  refine hnone n hn ?_
  rwa [← n.tokens_resign "", heq, Node.tokens_resign]

/-- Constructs of which none takes the place of another fill their container. -/
theorem Node.Nests.fills (h : a.Nests l s (attachAll .empty cs).children) (hcs : a.Encloses l s cs)
    (hnew : replacesAmong .empty cs = false) : a.Fills l s (attachAll .empty cs).children := by
  obtain ⟨-, hnodes⟩ := indexed_attachAll ChildMap.indexed_empty (b := .empty) hnew
  have hnodes : (attachAll .empty cs).children.nodes.map (Node.resign "") =
      cs.map fun c => c.node.resign "" := hnodes
  constructor
  · have hrow : (cs.map fun c => c.node.resign "").Pairwise fun x y => x.tokens.stop ≤ y.tokens.first := by
      rw [List.pairwise_map]
      simpa using hcs.row
    rw [← hnodes, List.pairwise_map] at hrow
    simpa using hrow
  · intro k hk
    by_cases hhas : ∃ n ∈ (attachAll .empty cs).children.nodes, n.tokens.Has k
    · obtain ⟨n, hn, hnk⟩ := hhas
      exact .inl ⟨n, ⟨hn, hnk⟩, fun y hy => h.unique hy.1 hn hy.2 hnk⟩
    · obtain ⟨t, ht, hspare⟩ := hcs.spare hnew (by simp) hk fun n hn hnk => hhas ⟨n, hn, hnk⟩
      cases l with
      | script => exact .inr ⟨rfl, fun n hn hnk => hhas ⟨n, hn, hnk⟩, t, ht, hspare⟩
      | markup => cases hspare

end Attach

section Parse

variable {l : Language} {text : List Char} {t : Tree} {a : Node} {file body : List Construct}

/-- What is read from a source lies in it, at every depth. -/
private theorem Language.encloses_of_constructs {s : Source} {cs : List Construct}
    (h : l.constructs s = .ok cs) :
    (Tree.ofConstructs s cs).root.Encloses l s cs ∧ ∀ c ∈ cs, c.Nests l s := by
  have hrun : Run l (NestsAt l s) s.tokens cs [] := by
    cases l with
    | script =>
      refine Script.run_of_statements ?_ ?_ h
      · intro kind ts q c hleaf
        have hq := hleaf.suffix
        obtain ⟨tag, first, k, -, -, rfl⟩ := hleaf
        exact ⟨fun _ _ => ⟨rfl, .leaf _⟩, fun _ => ⟨hq, .leaf _ _ _ _ _, fun hl => by cases hl⟩⟩
      · intro kind tag ts k m e o q body more hopens hm hbody hplain ho hmore hclauses
        exact .block hopens.suffix hm hbody hplain ho hmore hclauses List.suffix_rfl (fun _ => rfl)
          fun hl => by cases hl
    | markup =>
      refine Markup.run_of_elements ?_ ?_ h
      · rintro i name id ts q hq -
        exact ⟨fun _ _ => ⟨rfl, .leaf _⟩, fun _ => ⟨hq, .leaf _ _ _ _ _, fun _ => rfl⟩⟩
      · intro i name id ts k m e o q body hhead hm hbody hplain ho hend
        obtain ⟨u, rfl, -⟩ := Markup.local_head name id k hhead
        obtain ⟨r, hr, hq⟩ := Markup.endTag_iff.mp hend
        rw [← List.append_nil body]
        exact .block (List.suffix_append u k) hm hbody hplain ho .nil (by simp)
          (hq.suffix.trans hr.suffix) (fun hl => by cases hl) fun _ => rfl
  obtain ⟨-, hinner, hcovered⟩ := hrun.nests List.suffix_rfl
  obtain ⟨hin, hrow, -⟩ := hrun.liesAt.row (Nat.le_refl _)
  rw [Nat.sub_self] at hin hcovered
  refine ⟨⟨by rintro _ ⟨⟩, by rintro _ ⟨⟩, fun c hc => (hin c hc).2, hrow,
    fun _ _ k hk => hcovered k hk.1 hk.2,
    fun hl c hc => (hinner c hc).2 hl⟩, fun c hc => (hinner c hc).1⟩

/-- What is known of a container and the constructs it is built from. -/
structure Holding (l : Language) (s : Source) (a : Node) (body : List Construct) : Prop where
  children : a.children? = some (attachAll .empty body).children
  encloses : a.Encloses l s body
  inner : ∀ c ∈ body, c.Nests l s
  keyed : a.Keyed
  arranged : a.Arranged
  stop : a.tokens.stop ≤ s.tokens.length

/-- From a container to one in it. -/
theorem Tree.Builds.holding (hroot : Holding l t.source t.root file) (h : t.Builds file a body) :
    Holding l t.source a body := by
  induction h with
  | root => exact hroot
  | @inside a n outer body sig kind tag tokens line braces above hc child built ih =>
    obtain ⟨harranged, hinside, -⟩ := ih.arranged.child child
    have hkeyed := (ih.keyed.child child).1
    cases ih.inner _ hc with
    | block encloses inner =>
      subst built
      exact ⟨rfl, encloses.resign sig, inner, hkeyed, harranged, Nat.le_trans hinside.stop ih.stop⟩

theorem Tree.exists_builds (hroot : Holding l t.source t.root file) {p : List String}
    (ha : t.find? p = some a) (hcontainer : a.isContainer = true) : ∃ body, t.Builds file a body := by
  induction p using List.reverseRecOn generalizing a with
  | nil =>
    cases ha
    exact ⟨file, .root⟩
  | append_singleton p sig ih =>
    obtain ⟨outer, houter, hchild⟩ := Option.bind_eq_some_iff.mp (Node.find?_concat.symm.trans ha)
    have hisContainer : outer.isContainer = true := by
      cases outer with
      | leaf => cases hchild
      | container => rfl
    obtain ⟨body, hbody⟩ := ih houter hisContainer
    have hheld := hbody.holding hroot
    obtain ⟨hmem, hsig⟩ := (hheld.keyed.indexed hheld.children).get?_eq_some.mp
      (show (attachAll .empty body).children.get? sig = some a by
        rwa [Node.child?, hheld.children] at hchild)
    obtain ⟨c, hc, heq⟩ := exists_construct_of_mem hmem
    cases c with
    | leaf =>
      rw [heq] at hcontainer
      cases hcontainer
    | block kind tag tokens line braces inner => exact ⟨inner, .inside hbody hc hchild (hsig ▸ heq)⟩

/-- The constructs that the root of a tree is built from. -/
theorem Language.holding_of_parse (h : l.parse text = .ok t) :
    ∃ file, l.source text = .ok t.source ∧ l.constructs t.source = .ok file ∧
      Holding l t.source t.root file := by
  have hwell := wellFormed_of_parse h
  obtain ⟨s, file, hs, hfile, rfl⟩ := parse_iff.mp h
  obtain ⟨hencloses, hinner⟩ := encloses_of_constructs hfile
  exact ⟨file, hs, hfile, rfl, hencloses, hinner, hwell.keyed, hwell.arranged, Nat.le_refl _⟩

/-- In every tree that is parsed the children of each container have signatures of their own and nest in
the tokens and in the text. Where no construct took the place of another, as in all documents, they fill
the container. -/
theorem Language.children_nest (h : l.parse text = .ok t) :
    ∃ file, l.constructs t.source = .ok file ∧ t = .ofConstructs t.source file ∧ t.text = text ∧
      (∀ p a, t.find? p = some a → a.isContainer = true → ∃ body, t.Builds file a body) ∧
      ∀ a body, t.Builds file a body → ∃ m, a.children? = some m ∧ a.Nests l t.source m ∧
        a.NestsInText t.source m ∧ (replacesAmong .empty body = false → a.Fills l t.source m) ∧
        (l = .markup → replacesAmong .empty body = false) := by
  have hwell := wellFormed_of_parse h
  have htext := text_of_parse h
  obtain ⟨s, file, -, hfile, rfl⟩ := parse_iff.mp h
  obtain ⟨hencloses, hinner⟩ := encloses_of_constructs hfile
  have hroot : Holding l s (Tree.ofConstructs s file).root file :=
    ⟨rfl, hencloses, hinner, hwell.keyed, hwell.arranged, Nat.le_refl _⟩
  refine ⟨file, hfile, rfl, htext, fun p a => Tree.exists_builds hroot, fun a body hbody => ?_⟩
  have hheld := hbody.holding hroot
  have hnests := hheld.encloses.nests hheld.children (fun n => exists_construct_of_mem) hheld.keyed
    hheld.arranged hheld.stop
  exact ⟨_, hheld.children, hnests, hnests.inText hwell.laidOut, hnests.fills hheld.encloses,
    fun hl => replacesAmong_elements ChildMap.indexed_empty (hheld.encloses.elements hl)⟩

set_option maxRecDepth 100000 in
/-- An `if` with its `else` and a call, between stray `;`. -/
theorem Language.children_nest_of_an_if : ∃ t file m,
    Language.script.parse "; if (é) \x7b a(); ; \x7d else \x7b b(); \x7d ; g();".toList = .ok t ∧
    Language.script.constructs t.source = .ok file ∧ replacesAmong .empty file = false ∧
    t.root.children? = some m ∧ m.signatures = ["if", "funCall:g"] ∧
    m.nodes.map Node.tokens = [⟨1, 19⟩, ⟨20, 24⟩] ∧ t.root.Nests .script t.source m ∧
    t.root.NestsInText t.source m ∧ t.root.Fills .script t.source m := by
  obtain ⟨t, ht, hsome⟩ := Option.map_eq_some_iff.mp
    (show (Language.script.parse "; if (é) \x7b a(); ; \x7d else \x7b b(); \x7d ; g();".toList).toOption.map
      (fun t => (t.root.children?.map fun m => (m.signatures, m.nodes.map Node.tokens),
        (Language.script.constructs t.source).toOption.map (replacesAmong .empty))) =
      some (some (["if", "funCall:g"], [⟨1, 19⟩, ⟨20, 24⟩]), some false) by decide +kernel)
  replace ht := ok_of_toOption ht
  obtain ⟨file, hfile, -, -, -, hbuilds⟩ := Language.children_nest ht
  obtain ⟨m, hm, hnests, htext, hfills, -⟩ := hbuilds t.root file .root
  rw [hfile, hm] at hsome
  obtain ⟨hnodes, hnew⟩ := Prod.ext_iff.mp hsome
  have hnew : replacesAmong .empty file = false := Option.some.inj hnew
  obtain ⟨hsigs, htokens⟩ := Prod.ext_iff.mp (Option.some.inj hnodes)
  exact ⟨t, file, m, ht, hfile, hnew, hm, hsigs, htokens, hnests, htext, hfills hnew⟩

end Parse

end ModWeave
