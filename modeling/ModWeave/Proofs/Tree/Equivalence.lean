import ModWeave.Proofs.Tree.Arrangement

/-! On the nodes of parsed trees, sameness of content is an equivalence, whatever trees they come from. -/
namespace ModWeave

/-- A node is a container itself or stands in it, at any depth. -/
inductive Node.Contains : Node → Node → Prop
  | self (a : Node) : Contains a a
  | inside {a n b : Node} {children : ChildMap Node} (opened : a.children? = some children)
      (child : n ∈ children.nodes) (rest : Contains n b) : Contains a b

/-- A node of the tree of a text. -/
structure ParsedNode where
  language : Language
  text : List Char
  tree : Tree
  node : Node
  parsed : language.parse text = .ok tree
  contained : tree.root.Contains node

namespace Node

variable {a b : Node}

theorem Keyed.of_contains (h : a.Keyed) (hb : a.Contains b) : b.Keyed := by
  induction hb with
  | self => exact h
  | inside opened child _ ih =>
    cases h with
    | leaf => cases opened
    | container head braces nodes index indexed below =>
      cases opened
      exact ih (below _ child)

/-- What a keyed node contains is found under a path, and nothing else is. -/
theorem Keyed.contains_iff (h : a.Keyed) : a.Contains b ↔ ∃ path, a.find? path = some b := by
  constructor
  · intro hb
    induction hb with
    | self => exact ⟨[], rfl⟩
    | @inside a n b children opened child _ ih =>
      obtain ⟨path, hpath⟩ := ih (h.of_contains (.inside opened child (.self n)))
      have hn : a.child? n.signature = some n := by
        rw [child?, opened, Option.bind_some, (h.indexed opened).get?_eq_some]
        exact ⟨child, rfl⟩
      exact ⟨n.signature :: path, by rw [find?_cons, hn, Option.bind_some, hpath]⟩
  · rintro ⟨path, hpath⟩
    induction path generalizing a with
    | nil =>
      cases hpath
      exact .self _
    | cons sig path ih =>
      rw [find?_cons, Option.bind_eq_some_iff] at hpath
      obtain ⟨n, hn, hpath⟩ := hpath
      obtain ⟨children, opened, hget⟩ := Option.bind_eq_some_iff.mp hn
      exact .inside opened ((h.indexed opened).get?_eq_some.mp hget).1 (ih (h.child hn).1 hpath)

end Node

section Shapes

/-- What is compared of a node itself: of a leaf its tokens, of a container those of its header. -/
inductive Shape where
  | leaf (tokens : List (TokenKind × String))
  | container (header : List (TokenKind × String))

/-- What a node is made of, apart from its children. -/
def Node.shape (s : Source) : Node → Shape
  | .leaf h => .leaf ((s.slice h.tokens).map Token.content)
  | .container h b ns index => .container ((s.slice (Node.container h b ns index).header).map Token.content)

/-- The shape of the node under a path. -/
def Node.shapeAt (s : Source) (n : Node) (path : List String) : Option Shape :=
  (n.find? path).map (Node.shape s)

variable {s t : Source} {a b : Node}

theorem Node.shapeAt_cons (sig : String) (path : List String) :
    a.shapeAt s (sig :: path) = (a.child? sig).bind (·.shapeAt s path) := by
  rw [shapeAt, find?_cons, Option.map_bind]
  rfl

/-- Two nodes have the same content when the same paths lead to something in both, and to what has the
same shape. -/
theorem Node.Keyed.sameContent_iff (ha : a.Keyed) (hb : b.Keyed) :
    sameContent s t a b ↔ ∀ path, a.shapeAt s path = b.shapeAt t path := by
  constructor
  · intro h path
    induction path generalizing a b with
    | nil =>
      cases a <;> cases b <;>
        simp_all [sameContent, sameHeader, sameTokens, shapeAt, shape, find?]
    | cons sig path ih =>
      rw [shapeAt_cons, shapeAt_cons]
      cases hn : a.child? sig with
      | some n =>
        obtain ⟨twin, htwin, hsame⟩ := ha.twin h hn
        rw [htwin, Option.bind_some, Option.bind_some, ih (ha.child hn).1 (hb.child htwin).1 hsame]
      | none =>
        cases hn' : b.child? sig with
        | none => rfl
        | some n =>
          obtain ⟨twin, htwin, -⟩ := hb.twin (ha.sameContent_symm hb h) hn'
          cases hn.symm.trans htwin
  · intro h
    induction ha generalizing b with
    | leaf head =>
      cases hb with
      | leaf head' => simpa [shapeAt, shape, find?, sameContent, sameTokens] using h []
      | container => simpa [shapeAt, shape, find?] using h []
    | container head braces ns index indexed below ih =>
      cases hb with
      | leaf => simpa [shapeAt, shape, find?] using h []
      | container head' braces' ns' index' indexed' below' =>
        have hheader : sameHeader s t (.container head braces ns index) (.container head' braces' ns' index') := by
          simpa [shapeAt, shape, find?, sameHeader, sameTokens] using h []
        have hbelow (sig : String) (path : List String) :
            (ChildMap.get? ⟨ns, index⟩ sig).bind (·.shapeAt s path) =
              (ChildMap.get? ⟨ns', index'⟩ sig).bind (·.shapeAt t path) := by
          have := h (sig :: path)
          rwa [shapeAt_cons, shapeAt_cons] at this
        have hsome (sig : String) : (ChildMap.get? ⟨ns, index⟩ sig).isSome =
            (ChildMap.get? ⟨ns', index'⟩ sig).isSome := by
          have := congrArg Option.isSome (hbelow sig [])
          simpa [Option.isSome_bind, shapeAt, find?] using this
        refine sameContent_container.mpr ⟨hheader, Nat.le_antisymm ?_ ?_, fun n hn => ?_⟩
        · exact indexed.length_le indexed' fun n hn => by
            rw [← indexed'.get?_isSome, ← hsome, indexed.get?_eq_some.mpr ⟨hn, rfl⟩]
            rfl
        · exact indexed'.length_le indexed fun n hn => by
            rw [← indexed.get?_isSome, hsome, indexed'.get?_eq_some.mpr ⟨hn, rfl⟩]
            rfl
        · have hget := indexed.get?_eq_some.mpr ⟨hn, rfl⟩
          obtain ⟨twin, htwin⟩ := Option.isSome_iff_exists.mp ((hsome n.signature).symm.trans (by rw [hget]; rfl))
          refine ⟨twin, htwin, ih n hn (below' twin (indexed'.get?_eq_some.mp htwin).1) fun path => ?_⟩
          have := hbelow n.signature path
          rwa [hget, htwin, Option.bind_some, Option.bind_some] at this

end Shapes

namespace ParsedNode

/-- The node with the source it stands in. -/
def excerpt (a : ParsedNode) : Excerpt := ⟨a.tree.source, a.node⟩

theorem keyed (a : ParsedNode) : a.node.Keyed := (Language.keyed_of_parse a.parsed).of_contains a.contained

/-- All tokens of a parsed node are in its source, those of its header too. -/
theorem within (a : ParsedNode) : a.node.tokens.stop ≤ a.tree.source.tokens.length ∧
    a.node.header.stop ≤ a.tree.source.tokens.length := by
  have hwell := Language.wellFormed_of_parse a.parsed
  obtain ⟨path, hpath⟩ := hwell.keyed.contains_iff.mp a.contained
  obtain ⟨harranged, hinside⟩ := hwell.arranged.find hpath
  have hfirst : a.node.tokens.first ≤ a.node.tokens.stop := by
    obtain rfl | ⟨path, sig, rfl⟩ := List.eq_nil_or_concat' path
    · rw [← show a.tree.root = a.node from Option.some.inj hpath, hwell.whole]
      exact Nat.zero_le _
    · exact Nat.le_of_lt (hwell.arranged.nonempty_of_find hpath)
  rw [hwell.whole] at hinside
  exact ⟨hinside.stop, Nat.le_trans (harranged.header_stop_le hfirst) hinside.stop⟩

/-- Nothing that is compared of two parsed nodes, and nothing of their text, is out of range. -/
theorem compares (a b : ParsedNode) :
    a.tree.source.byteRange? a.node.tokens = some (a.node.span a.tree.source) ∧
      a.tree.source.sameTokens? a.node.tokens b.tree.source b.node.tokens =
        some (sameTokens (a.tree.source.slice a.node.tokens) (b.tree.source.slice b.node.tokens)) ∧
      a.tree.source.sameTokens? a.node.header b.tree.source b.node.header =
        some (sameHeader a.tree.source b.tree.source a.node b.node) :=
  ⟨Source.byteRange?_eq_some a.within.1, Source.sameTokens?_eq_some a.within.1 b.within.1,
    Source.sameTokens?_eq_some a.within.2 b.within.2⟩

/-- Any node has its own content; two nodes have each other's, and nodes that have the content of a third
have the same. -/
theorem sameContent_equivalence :
    Equivalence fun a b : ParsedNode => a.excerpt.sameContent b.excerpt = true where
  refl a := a.keyed.sameContent_refl
  symm {a b} h := a.keyed.sameContent_symm b.keyed h
  trans {a b c} h k := a.keyed.sameContent_trans b.keyed c.keyed h k

/-- The root of a tree. -/
def root {l : Language} {text : List Char} {t : Tree} (h : l.parse text = .ok t) : ParsedNode :=
  ⟨l, text, t, t.root, h, .self _⟩

/-- Three scripts of the same calls, in another order and with other blanks. -/
theorem sameContent_of_reordered_calls : ∃ a b c : ParsedNode,
    a.text = "f(1); g();".toList ∧ b.text = "g(); f( 1 );".toList ∧ c.text = "f(1);  g() ;".toList ∧
      a.excerpt.sameContent b.excerpt = true ∧ b.excerpt.sameContent c.excerpt = true ∧
      b.excerpt.sameContent a.excerpt = true ∧ a.excerpt.sameContent c.excerpt = true := by
  let parse (text : String) := (Language.script.parse text.toList).toOption
  have hcomes : (do
      let t ← parse "f(1); g();"
      let u ← parse "g(); f( 1 );"
      let v ← parse "f(1);  g() ;"
      return (sameContent t.source u.source t.root u.root, sameContent u.source v.source u.root v.root)) =
      some (true, true) := by decide +kernel
  obtain ⟨t, ht, hcomes⟩ := Option.bind_eq_some_iff.mp hcomes
  obtain ⟨u, hu, hcomes⟩ := Option.bind_eq_some_iff.mp hcomes
  obtain ⟨v, hv, hcomes⟩ := Option.bind_eq_some_iff.mp hcomes
  obtain ⟨hab, hbc⟩ := Prod.mk.inj (Option.some.inj hcomes)
  let a := root (ok_of_toOption ht)
  let b := root (ok_of_toOption hu)
  let c := root (ok_of_toOption hv)
  replace hab : a.excerpt.sameContent b.excerpt = true := hab
  replace hbc : b.excerpt.sameContent c.excerpt = true := hbc
  exact ⟨a, b, c, rfl, rfl, rfl, hab, hbc, sameContent_equivalence.symm hab,
    sameContent_equivalence.trans hab hbc⟩

end ParsedNode

end ModWeave
