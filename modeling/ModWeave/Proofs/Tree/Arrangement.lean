import Mathlib.Data.List.Pairwise
import ModWeave.Proofs.Tree.Language
import ModWeave.Proofs.Tree.Run
import ModWeave.Proofs.Tree.Sameness

/-! How the nodes of a tree lie in the token list: siblings apart, and children between the braces of
their container or, as clauses, behind them. This holds when constructs are defined again, too. -/
namespace ModWeave

namespace Extent

/-- Neither range reaches into the other. -/
def Apart (e f : Extent) : Prop := e.stop ≤ f.first ∨ f.stop ≤ e.first

/-- The range is part of the other. -/
structure Inside (e f : Extent) : Prop where
  first : f.first ≤ e.first
  stop : e.stop ≤ f.stop

theorem Apart.symm {e f : Extent} (h : e.Apart f) : f.Apart e := Or.symm h

theorem Inside.refl (e : Extent) : e.Inside e := ⟨Nat.le_refl _, Nat.le_refl _⟩

theorem Inside.trans {e f g : Extent} (h : e.Inside f) (k : f.Inside g) : e.Inside g :=
  ⟨Nat.le_trans k.first h.first, Nat.le_trans h.stop k.stop⟩

theorem Apart.mono {e f e' f' : Extent} (h : e.Apart f) (he : e'.Inside e) (hf : f'.Inside f) :
    e'.Apart f' := by
  rcases h with h | h
  · exact .inl (Nat.le_trans he.stop (Nat.le_trans h hf.first))
  · exact .inr (Nat.le_trans hf.stop (Nat.le_trans h he.first))

end Extent

/-- Where a child may lie: between the braces or behind the closing one, and in its container. -/
structure Head.Holds (head : Head) (braces : Option Braces) (e : Extent) : Prop where
  inside : e.Inside head.tokens
  nonempty : e.first < e.stop
  lane : ∀ b ∈ braces, (b.opening < e.first ∧ e.stop ≤ b.closing) ∨ b.closing < e.first

/-- At every depth siblings lie apart, and children where they may. -/
inductive Node.Arranged : Node → Prop
  | leaf (head : Head) : Arranged (.leaf head)
  | container (head : Head) (braces : Option Braces) (nodes : List Node)
      (index : List (String × Nat))
      (frame : ∀ b ∈ braces, head.tokens.first ≤ b.opening ∧ b.opening < b.closing ∧
        b.closing < head.tokens.stop)
      (apart : (nodes.map Node.tokens).Pairwise Extent.Apart)
      (held : ∀ n ∈ nodes, head.Holds braces n.tokens) (inner : ∀ n ∈ nodes, Arranged n) :
      Arranged (.container head braces nodes index)

section Attach

@[simp] theorem Node.tokens_resign (n : Node) (sig : String) : (n.resign sig).tokens = n.tokens := by
  cases n <;> rfl

@[simp] theorem Node.arranged_resign (n : Node) (sig : String) :
    (n.resign sig).Arranged ↔ n.Arranged := by
  cases n with
  | leaf head => exact iff_of_true (.leaf _) (.leaf _)
  | container head braces nodes index =>
    constructor
    · rintro (_ | ⟨_, _, _, _, frame, apart, held, inner⟩)
      exact .container _ _ _ _ frame apart
        (fun n hn => ⟨(held n hn).inside, (held n hn).nonempty, (held n hn).lane⟩) inner
    · rintro (_ | ⟨_, _, _, _, frame, apart, held, inner⟩)
      exact .container _ _ _ _ frame apart
        (fun n hn => ⟨(held n hn).inside, (held n hn).nonempty, (held n hn).lane⟩) inner

private theorem pairwise_set {α : Type} {R : α → α → Prop} (symm : ∀ x y, R x y → R y x) {xs : List α}
    {x : α} (h : xs.Pairwise R) (hx : ∀ y ∈ xs, R y x) (i : Nat) : (xs.set i x).Pairwise R := by
  induction xs generalizing i with
  | nil => exact .nil
  | cons y ys ih =>
    rw [List.pairwise_cons] at h
    rw [List.forall_mem_cons] at hx
    cases i with
    | zero => exact List.pairwise_cons.mpr ⟨fun z hz => symm _ _ (hx.2 z hz), h.2⟩
    | succ i =>
      refine List.pairwise_cons.mpr ⟨fun z hz => ?_, ih h.2 hx.2 i⟩
      rcases List.mem_or_eq_of_mem_set hz with hz | rfl
      · exact h.1 z hz
      · exact hx.1

/-- Children that take another's place lie apart from the others as well. -/
theorem apart_attachAll {b : Block} {cs : List Construct} (h : b.children.Indexed)
    (hapart : (b.children.nodes.map Node.tokens ++ cs.map fun c => c.node.tokens).Pairwise
      Extent.Apart) :
    ((attachAll b cs).children.nodes.map Node.tokens).Pairwise Extent.Apart := by
  induction cs generalizing b with
  | nil => simpa [attachAll] using hapart
  | cons c cs ih =>
    obtain ⟨hidx, hcase⟩ := Block.attach_cases h c.node
    refine ih hidx ?_
    have htokens (ns : List Node) : ns.map Node.tokens = (ns.map (Node.resign "")).map Node.tokens := by
      rw [List.map_map]
      exact List.map_congr_left fun n _ => (n.tokens_resign "").symm
    rw [htokens] at hapart
    rw [htokens (b.attach c.node).children.nodes]
    obtain hnew | ⟨i, hnew⟩ := hcase
    · rw [hnew]
      simpa using hapart
    · rw [List.map_cons, List.pairwise_append, List.pairwise_cons] at hapart
      obtain ⟨hold, ⟨hfirst, hrest⟩, hcross⟩ := hapart
      rw [hnew, List.map_set, Node.tokens_resign, List.pairwise_append]
      refine ⟨pairwise_set (fun _ _ => Extent.Apart.symm) hold
        (fun e he => hcross e he _ List.mem_cons_self) i, hrest, fun e he f hf => ?_⟩
      rcases List.mem_or_eq_of_mem_set he with he | rfl
      · exact hcross e he f (List.mem_cons_of_mem _ hf)
      · exact hfirst f hf

/-- A container of attached constructs is arranged when these lie apart and where they may. -/
theorem arranged_attachAll {head : Head} {braces : Option Braces} {cs : List Construct}
    (frame : ∀ b ∈ braces, head.tokens.first ≤ b.opening ∧ b.opening < b.closing ∧
      b.closing < head.tokens.stop)
    (apart : cs.Pairwise fun c d => c.node.tokens.Apart d.node.tokens)
    (held : ∀ c ∈ cs, head.Holds braces c.node.tokens) (inner : ∀ c ∈ cs, c.node.Arranged) :
    (Node.container head braces (attachAll .empty cs).children.nodes
      (attachAll .empty cs).children.index).Arranged := by
  refine .container _ _ _ _ frame (apart_attachAll ChildMap.indexed_empty ?_) ?_ ?_
  · simpa [Block.empty, ChildMap.empty, List.pairwise_map] using apart
  · exact (forall_attachAll (P := fun n => head.Holds braces n.tokens)
      (fun n sig => by rw [Node.tokens_resign]) ChildMap.indexed_empty (b := .empty)
      (by simp [Block.empty, ChildMap.empty]) held).2
  · exact (forall_attachAll (fun n sig => n.arranged_resign sig) ChildMap.indexed_empty (b := .empty)
      (by simp [Block.empty, ChildMap.empty]) inner).2

end Attach

section Read

/-- The construct lies where it was read, and is arranged. -/
def LiesAt (n : Nat) (ts : List Token) (c : Construct) (q : List Token) : Prop :=
  ts.length ≤ n → q.length < ts.length → c.node.tokens = ⟨n - ts.length, n - q.length⟩ ∧ c.node.Arranged

variable {l : Language} {n : Nat} {ts q : List Token} {cs : List Construct}

/-- Constructs that are read one behind the other lie one behind the other. -/
theorem Run.row (h : Run l (LiesAt n) ts cs q) (hts : ts.length ≤ n) :
    (∀ c ∈ cs, c.node.tokens.first < c.node.tokens.stop ∧
      c.node.tokens.Inside ⟨n - ts.length, n - q.length⟩) ∧
      cs.Pairwise (fun c d => c.node.tokens.stop ≤ d.node.tokens.first) ∧ ∀ c ∈ cs, c.node.Arranged := by
  induction h with
  | nil => exact ⟨by simp, .nil, by simp⟩
  | skip passed more ih =>
    have shorter := passed.length_lt
    obtain ⟨hinside, hrow, harranged⟩ := ih (by omega)
    refine ⟨fun c hc => ⟨(hinside c hc).1, (hinside c hc).2.trans ⟨?_, Nat.le_refl _⟩⟩, hrow, harranged⟩
    exact Nat.sub_le_sub_left (Nat.le_of_lt shorter) n
  | @cons ts m q c cs first shorter more ih =>
    obtain ⟨hinside, hrow, harranged⟩ := ih (by omega)
    obtain ⟨htokens, hc⟩ := first hts shorter
    have hle := more.length_le
    refine ⟨List.forall_mem_cons.mpr ⟨?_, fun d hd => ?_⟩, List.pairwise_cons.mpr ⟨fun d hd => ?_, hrow⟩,
      List.forall_mem_cons.mpr ⟨hc, harranged⟩⟩
    · rw [htokens]
      exact ⟨by dsimp only; omega, Nat.le_refl _, Nat.sub_le_sub_left hle n⟩
    · refine ⟨(hinside d hd).1, (hinside d hd).2.trans ⟨?_, Nat.le_refl _⟩⟩
      exact Nat.sub_le_sub_left (Nat.le_of_lt shorter) n
    · rw [htokens]
      exact (hinside d hd).2.first

/-- A block is arranged when what is read between its braces and behind them is. -/
theorem LiesAt.block {kind : NodeKind} {tag : String} {line : Nat} {k m e o r : List Token}
    {body more : List Construct} (hk : k.length ≤ ts.length) (hm : m.length < k.length)
    (hbody : Run l (LiesAt n) m body e) (ho : o.length < e.length) (hmore : Run l (LiesAt n) o more r)
    (hr : q.length ≤ r.length) :
    LiesAt n ts (.block kind tag ⟨n - ts.length, n - q.length⟩ line ⟨n - k.length, n - e.length⟩
      (body ++ more)) q := by
  intro hts _
  have he := hbody.length_le
  have hmore' := hmore.length_le
  obtain ⟨hinside, hrow, harranged⟩ := hbody.row (by omega)
  obtain ⟨hinside', hrow', harranged'⟩ := hmore.row (by omega)
  refine ⟨rfl, arranged_attachAll ?_ ?_ ?_ ?_⟩
  · simp only [Option.mem_def, Option.some.injEq, forall_eq']
    omega
  · refine List.pairwise_append.mpr ⟨hrow.imp .inl, hrow'.imp .inl, fun c hc d hd => .inl ?_⟩
    have h1 := (hinside c hc).2.stop
    have h2 := (hinside' d hd).2.first
    dsimp only at h1 h2
    omega
  · refine List.forall_mem_append.mpr ⟨fun c hc => ?_, fun c hc => ?_⟩
    · obtain ⟨hne, hfirst, hstop⟩ := hinside c hc
      dsimp only at hfirst hstop
      refine ⟨⟨by dsimp only; omega, by dsimp only; omega⟩, hne, ?_⟩
      simp only [Option.mem_def, Option.some.injEq, forall_eq']
      exact .inl (by omega)
    · obtain ⟨hne, hfirst, hstop⟩ := hinside' c hc
      dsimp only at hfirst hstop
      refine ⟨⟨by dsimp only; omega, by dsimp only; omega⟩, hne, ?_⟩
      simp only [Option.mem_def, Option.some.injEq, forall_eq']
      exact .inr (by omega)
  · exact List.forall_mem_append.mpr ⟨harranged, harranged'⟩

/-- What parsing makes sure of: tokens stand in the text, children are found under their signatures, and
nodes lie where they may, in a root that takes up all tokens. -/
structure Tree.WellFormed (t : Tree) : Prop where
  laidOut : t.source.LaidOut
  container : t.root.isContainer
  keyed : t.root.Keyed
  arranged : t.root.Arranged
  whole : t.root.tokens = ⟨0, t.source.tokens.length⟩

theorem Language.laidOut_of_source {l : Language} {text : List Char} {s : Source}
    (h : l.source text = .ok s) : s.LaidOut := by
  cases l with
  | script => exact Script.laidOut_of_source h
  | markup => exact Markup.laidOut_of_source h

theorem Language.wellFormed_of_parse {l : Language} {text : List Char} {t : Tree}
    (h : l.parse text = .ok t) : t.WellFormed := by
  have hkeyed := keyed_of_parse h
  obtain ⟨s, cs, hs, hcs, rfl⟩ := parse_iff.mp h
  have hrun : Run l (LiesAt s.tokens.length) s.tokens cs [] := by
    cases l with
    | script =>
      refine Script.run_of_statements ?_ ?_ hcs
      · rintro kind ts q c ⟨tag, first, k, -, -, rfl⟩ - -
        exact ⟨rfl, .leaf _⟩
      · intro kind tag ts k m e o q body more hopens hm hbody _ ho hmore _
        exact .block hopens.length_le hm.length_lt hbody ho.length_lt hmore (Nat.le_refl _)
    | markup =>
      refine Markup.run_of_elements ?_ ?_ hcs
      · rintro i name id ts q - - - -
        exact ⟨rfl, .leaf _⟩
      · intro i name id ts k m e o q body hhead hm hbody _ ho hend
        rw [← List.append_nil body]
        exact .block (Nat.le_of_lt hhead.length_lt) hm.length_lt hbody ho.length_lt .nil
          (Nat.le_of_lt hend.length_lt)
  obtain ⟨hinside, hrow, harranged⟩ := hrun.row (Nat.le_refl _)
  refine ⟨laidOut_of_source hs, rfl, hkeyed, ?_, rfl⟩
  refine arranged_attachAll (by simp) (hrow.imp .inl) (fun c hc => ⟨?_, (hinside c hc).1, by simp⟩) harranged
  have := (hinside c hc).2
  rwa [Nat.sub_self] at this

end Read

section Paths

variable {a x y : Node} {p q : List String} {sig sig' : String} {k : Nat}

/-- A place in the token list where text may be put into a container: next to a child or behind a
brace. -/
def Node.Gap (a : Node) (k : Nat) : Prop :=
  (∃ sig x, a.child? sig = some x ∧ (k = x.tokens.first ∨ k = x.tokens.stop)) ∨
    ∃ b, a.braces? = some b ∧ (k = b.opening + 1 ∨ k = b.closing + 1)

namespace Node.Arranged

private theorem mem_of_child {head : Head} {braces : Option Braces} {nodes : List Node}
    {index : List (String × Nat)} (hx : (Node.container head braces nodes index).child? sig = some x) :
    x ∈ nodes := by
  obtain ⟨i, -, hi⟩ : ∃ i, (ChildMap.mk nodes index).position? sig = some i ∧ nodes[i]? = some x :=
    Option.bind_eq_some_iff.mp hx
  exact List.mem_of_getElem? hi

theorem child (h : a.Arranged) (hx : a.child? sig = some x) :
    x.Arranged ∧ x.tokens.Inside a.tokens ∧ x.tokens.first < x.tokens.stop := by
  cases h with
  | leaf => cases hx
  | container head braces nodes index frame apart held inner =>
    have hmem := mem_of_child hx
    exact ⟨inner x hmem, (held x hmem).inside, (held x hmem).nonempty⟩

/-- The header of a node ends before the node does. -/
theorem header_stop_le (h : a.Arranged) (hle : a.tokens.first ≤ a.tokens.stop) :
    a.header.stop ≤ a.tokens.stop := by
  cases h with
  | leaf => exact hle
  | container head braces nodes index frame =>
    cases braces with
    | none => exact hle
    | some b =>
      obtain ⟨-, hopening, hclosing⟩ := frame b rfl
      exact Nat.le_of_lt (Nat.lt_trans hopening hclosing)

theorem find (h : a.Arranged) (hx : a.find? p = some x) :
    x.Arranged ∧ x.tokens.Inside a.tokens := by
  induction p generalizing a with
  | nil =>
    cases hx
    exact ⟨h, .refl _⟩
  | cons sig p ih =>
    rw [Node.find?_cons, Option.bind_eq_some_iff] at hx
    obtain ⟨c, hc, hx⟩ := hx
    obtain ⟨hc', hinside, -⟩ := h.child hc
    exact ⟨(ih hc' hx).1, (ih hc' hx).2.trans hinside⟩

theorem nonempty_of_find (h : a.Arranged) (hx : a.find? (p ++ [sig]) = some x) :
    x.tokens.first < x.tokens.stop := by
  rw [Node.find?_concat, Option.bind_eq_some_iff] at hx
  obtain ⟨c, hc, hx⟩ := hx
  exact ((h.find hc).1.child hx).2.2

/-- Children of different signatures lie apart. -/
theorem apart_child (h : a.Arranged) (hk : a.Keyed) (hx : a.child? sig = some x)
    (hy : a.child? sig' = some y) (hne : sig ≠ sig') : x.tokens.Apart y.tokens := by
  have hxy : x ≠ y := by
    rintro rfl
    exact hne ((hk.child hx).2.symm.trans (hk.child hy).2)
  cases h with
  | leaf => cases hx
  | container head braces nodes index frame apart held inner =>
    rw [List.pairwise_map] at apart
    have hsymm : Std.Symm fun m n : Node => m.tokens.Apart n.tokens := ⟨fun _ _ => Extent.Apart.symm⟩
    exact apart.forall (mem_of_child hx) (mem_of_child hy) hxy

/-- Nodes of which neither lies below the other lie apart. -/
theorem apart_of_find (h : a.Arranged) (hk : a.Keyed) (hx : a.find? p = some x)
    (hy : a.find? q = some y) (hpq : ¬ p <+: q) (hqp : ¬ q <+: p) : x.tokens.Apart y.tokens := by
  induction p generalizing a q with
  | nil => exact absurd List.nil_prefix hpq
  | cons sig p ih =>
    cases q with
    | nil => exact absurd List.nil_prefix hqp
    | cons sig' q =>
      rw [Node.find?_cons, Option.bind_eq_some_iff] at hx hy
      obtain ⟨c, hc, hx⟩ := hx
      obtain ⟨d, hd, hy⟩ := hy
      by_cases hsig : sig = sig'
      · subst hsig
        cases hc.symm.trans hd
        rw [List.prefix_cons_inj] at hpq hqp
        exact ih (h.child hc).1 (hk.child hc).1 hx hy hpq hqp
      · exact (h.apart_child hk hc hd hsig).mono ((h.child hc).1.find hx).2 ((h.child hd).1.find hy).2

/-- No child of a container reaches across a gap of it. -/
private theorem gap_child (h : a.Arranged) (hk : a.Keyed) (hgap : a.Gap k) (hx : a.child? sig = some x) :
    k ≤ x.tokens.first ∨ x.tokens.stop ≤ k := by
  obtain ⟨sig', y, hy, hky⟩ | ⟨b, hb, hkb⟩ := hgap
  · by_cases hsig : sig = sig'
    · subst hsig
      cases hx.symm.trans hy
      obtain rfl | rfl := hky
      · exact .inl (Nat.le_refl _)
      · exact .inr (Nat.le_refl _)
    · have hne := (h.child hy).2.2
      rcases h.apart_child hk hx hy hsig with hxy | hxy
      · exact .inr (by omega)
      · exact .inl (by omega)
  · cases h with
    | leaf => cases hx
    | container head braces nodes index frame apart held inner =>
      have hlane := (held x (mem_of_child hx)).lane b hb
      have hframe := frame b hb
      omega

private theorem gap_inside (h : a.Arranged) (hgap : a.Gap k) :
    a.tokens.first ≤ k ∧ k ≤ a.tokens.stop := by
  obtain ⟨sig, y, hy, hky⟩ | ⟨b, hb, hkb⟩ := hgap
  · obtain ⟨-, hinside, hne⟩ := h.child hy
    have hfirst := hinside.first
    have hstop := hinside.stop
    omega
  · cases h with
    | leaf => cases hb
    | container head braces nodes index frame apart held inner =>
      have hframe := frame b hb
      show head.tokens.first ≤ k ∧ k ≤ head.tokens.stop
      omega

/-- No node reaches across a gap of a container, unless the container lies in it. -/
theorem gap_of_find (h : a.Arranged) (hk : a.Keyed) (hx : a.find? p = some x) (hgap : x.Gap k)
    (hy : a.find? q = some y) (hqp : ¬ q <+: p) : k ≤ y.tokens.first ∨ y.tokens.stop ≤ k := by
  induction p generalizing a q with
  | nil =>
    cases hx
    cases q with
    | nil => exact absurd List.nil_prefix hqp
    | cons sig q =>
      rw [Node.find?_cons, Option.bind_eq_some_iff] at hy
      obtain ⟨d, hd, hy⟩ := hy
      have hinside := ((h.child hd).1.find hy).2
      rcases h.gap_child hk hgap hd with hkd | hkd
      · exact .inl (Nat.le_trans hkd hinside.first)
      · exact .inr (Nat.le_trans hinside.stop hkd)
  | cons sig p ih =>
    cases q with
    | nil => exact absurd List.nil_prefix hqp
    | cons sig' q =>
      rw [Node.find?_cons, Option.bind_eq_some_iff] at hx hy
      obtain ⟨c, hc, hx⟩ := hx
      obtain ⟨d, hd, hy⟩ := hy
      by_cases hsig : sig = sig'
      · subst hsig
        cases hc.symm.trans hd
        rw [List.prefix_cons_inj] at hqp
        exact ih (h.child hc).1 (hk.child hc).1 hx hy hqp
      · have hcx := (h.child hc).1.find hx
        have hdy := ((h.child hd).1.find hy).2
        have hin := hcx.1.gap_inside hgap
        rcases h.apart_child hk hc hd hsig with hcd | hcd
        · exact .inl (by have := hcx.2.stop; have := hdy.first; omega)
        · exact .inr (by have := hcx.2.first; have := hdy.stop; omega)

end Node.Arranged

end Paths

end ModWeave
