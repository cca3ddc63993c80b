import ModWeave.Proofs.Merge.Edits
import ModWeave.Proofs.Tree.Siblings

/-! Stretches of a text around one construct: all of it, and of the gaps beside it what belongs to no other
construct. What is added to a base is such a stretch. -/
namespace ModWeave

section Text

variable {s : Source} {j j' k lo hi : Nat}

/-- Token `k` has bytes between the two offsets. -/
def Source.Meets (s : Source) (lo hi k : Nat) : Prop := ∃ t ∈ s.tokens[k]?, t.start < hi ∧ lo < t.stop

theorem Source.Between.meets (hs : s.LaidOut) (hlo : s.Between j lo) (hhi : s.Between j' hi)
    (h : s.Meets lo hi k) : j ≤ k ∧ k < j' := by
  obtain ⟨t, ht, hstart, hstop⟩ := h
  rw [← Source.startAt_of_getElem ht] at hstart
  rw [← Source.endAt_succ_of_getElem ht] at hstop
  constructor
  · by_contra hlt
    have := hs.endAt_mono (i := k + 1) (j := j) (by omega)
    have := hlo.behind
    omega
  · by_contra hle
    have := hs.startAt_mono (i := j') (j := k) (by omega)
    have := hhi.before
    omega

/-- A part of a text falls into two at every boundary in it. -/
theorem Source.Boundary.split {cut : List Char} (hlo : s.Boundary lo) (hk : s.Boundary k)
    (hhi : s.Boundary hi) (hle : lo ≤ k) (hle' : k ≤ hi) (hcut : s.textBetween? lo hi = some cut) :
    ∃ u v, s.textBetween? lo k = some u ∧ s.textBetween? k hi = some v ∧ cut = u ++ v := by
  obtain ⟨x, y, hx, rfl⟩ := hlo
  obtain ⟨x', y', hx', rfl⟩ := hk
  obtain ⟨x'', y'', hx'', rfl⟩ := hhi
  obtain ⟨u, rfl, -⟩ := Text.exists_append_of_byteLength_le (hx.symm.trans hx') hle
  obtain ⟨v, rfl, -⟩ := Text.exists_append_of_byteLength_le (hx'.symm.trans hx'') hle'
  refine ⟨u, v, ?_, ?_, ?_⟩
  · rw [Source.textBetween?, hx', Text.byteLength_append, Text.slice?_append]
  · rw [Source.textBetween?, hx'', Text.byteLength_append (x ++ u), Text.slice?_append]
  · rw [Source.textBetween?, hx'', List.append_assoc x, Text.byteLength_append, Text.slice?_append] at hcut
    exact (Option.some.inj hcut).symm

end Text

section Stretch

variable {l : Language} {s : Source} {a child n : Node} {m : ChildMap Node} {before after : List Node}
  {j j' k : Nat}

/-- A child with a token of a lane stands in that lane. -/
theorem Node.Housed.sharesLane (h : a.Housed l s m) (hchild : child ∈ m.nodes) (hn : n ∈ m.nodes)
    (hk : (a.lane child.kind.isClause).Has k) (hnk : n.tokens.Has k) : child.sharesLane n = true := by
  rw [Node.sharesLane, beq_iff_eq]
  cases hb : a.braces? with
  | none => rw [h.plain hb n hn, h.plain hb child hchild]
  | some b =>
    obtain ⟨hfirst, hstop⟩ := h.lane n hn
    exact Node.lane_unique hb ⟨Nat.le_trans hfirst hnk.1, Nat.lt_of_lt_of_le hnk.2 hstop⟩ hk

/-- A child in a row of children, given with its siblings before and behind it. -/
structure Node.InRowAt (l : Language) (s : Source) (a : Node) (m : ChildMap Node) (before : List Node)
    (child : Node) (after : List Node) : Prop extends a.InRow l s m where
  split : m.nodes = before ++ child :: after

namespace Node.InRowAt

theorem child_mem (h : a.InRowAt l s m before child after) : child ∈ m.nodes := by simp [h.split]

theorem mem_of_before (h : a.InRowAt l s m before child after) (hn : n ∈ before) : n ∈ m.nodes := by
  simp [h.split, hn]

theorem mem_of_after (h : a.InRowAt l s m before child after) (hn : n ∈ after) : n ∈ m.nodes := by
  simp [h.split, hn]

theorem row_before (h : a.InRowAt l s m before child after) :
    before.Pairwise (fun x y => x.tokens.stop ≤ y.tokens.first) ∧
      ∀ n ∈ before, n.tokens.stop ≤ child.tokens.first := by
  obtain ⟨hbefore, -, hcross⟩ := List.pairwise_append.mp (h.split ▸ h.row)
  exact ⟨hbefore, fun n hn => hcross n hn child List.mem_cons_self⟩

theorem row_after (h : a.InRowAt l s m before child after) :
    after.Pairwise (fun x y => x.tokens.stop ≤ y.tokens.first) ∧
      ∀ n ∈ after, child.tokens.stop ≤ n.tokens.first := by
  obtain ⟨-, hrest, -⟩ := List.pairwise_append.mp (h.split ▸ h.row)
  obtain ⟨hafter, hrow⟩ := List.pairwise_cons.mp hrest
  exact ⟨hrow, hafter⟩

end Node.InRowAt

/-- The tokens from `j` up to `j'` are those of a child and of its surroundings, up to its siblings in the
lane at most. -/
structure Stretch (a : Node) (before : List Node) (child : Node) (after : List Node) (j j' : Nat) :
    Prop where
  lane : (a.lane child.kind.isClause).first ≤ j ∧ j' ≤ (a.lane child.kind.isClause).stop
  around : j ≤ child.tokens.first ∧ child.tokens.stop ≤ j'
  before : ∀ n ∈ before, child.sharesLane n = true → n.tokens.stop ≤ j
  after : ∀ n ∈ after, child.sharesLane n = true → j' ≤ n.tokens.first

namespace Stretch

/-- What a stretch has besides its child is spare and belongs to none. -/
theorem spare (hst : Stretch a before child after j j') (h : a.InRowAt l s m before child after)
    (hk : j ≤ k ∧ k < j') (hout : ¬ child.tokens.Has k) :
    (∀ n ∈ m.nodes, ¬ n.tokens.Has k) ∧ ∃ t ∈ s.tokens[k]?, l.isSpare t := by
  have hlane : (a.lane child.kind.isClause).Has k :=
    ⟨Nat.le_trans hst.lane.1 hk.1, Nat.lt_of_lt_of_le hk.2 hst.lane.2⟩
  have hnone : ∀ n ∈ m.nodes, ¬ n.tokens.Has k := by
    intro n hn hnk
    have hshares := h.sharesLane h.child_mem hn hlane hnk
    obtain ⟨hfirst, hstop⟩ := id hnk
    rw [h.split, List.mem_append, List.mem_cons] at hn
    obtain hn | rfl | hn := hn
    · have := hst.before n hn hshares
      omega
    · exact hout hnk
    · have := hst.after n hn hshares
      omega
  exact ⟨hnone, h.spare _ (h.labels child h.child_mem).script_of_clause k hlane hnone⟩

/-- From behind all that is before a child in its lane up to the end of the child. -/
theorem upTo (h : a.InRowAt l s m before child after) (hlane : (a.lane child.kind.isClause).first ≤ j)
    (hj : j ≤ child.tokens.first)
    (hbefore : ∀ n ∈ before, child.sharesLane n = true → n.tokens.stop ≤ j) :
    Stretch a before child after j child.tokens.stop :=
  ⟨⟨hlane, (h.lane child h.child_mem).stop⟩, ⟨hj, Nat.le_refl _⟩, hbefore, fun n hn _ => h.row_after.2 n hn⟩

/-- From the start of a child up to the next one in its lane. -/
theorem upToNext (h : a.InRowAt l s m before child after) {next : Node}
    (hnext : after.find? child.sharesLane = some next) :
    Stretch a before child after child.tokens.first next.tokens.first := by
  obtain ⟨hshares, nearer, farther, hsplit, hnearer⟩ := List.find?_eq_some_iff_append.mp hnext
  have hmem : next ∈ after := by simp [hsplit]
  obtain ⟨hrow, hafter⟩ := h.row_after
  obtain ⟨hne, -⟩ := h.nonempty next (h.mem_of_after hmem)
  have hstop := (h.lane next (h.mem_of_after hmem)).stop
  rw [beq_iff_eq.mp hshares] at hstop
  refine ⟨⟨(h.lane child h.child_mem).first, Nat.le_trans (Nat.le_of_lt hne) hstop⟩,
    ⟨Nat.le_refl _, hafter next hmem⟩, fun n hn _ => h.row_before.2 n hn, fun n hn hshares' => ?_⟩
  rw [hsplit, List.mem_append, List.mem_cons] at hn
  obtain hn | rfl | hn := hn
  · have := hnearer n hn
    simp [hshares'] at this
  · exact Nat.le_refl _
  · rw [hsplit, List.pairwise_append, List.pairwise_cons] at hrow
    exact Nat.le_trans (Nat.le_of_lt hne) (hrow.2.1.1 n hn)

/-- The child alone. -/
theorem own (h : a.InRowAt l s m before child after) :
    Stretch a before child after child.tokens.first child.tokens.stop :=
  upTo h (h.lane child h.child_mem).first (Nat.le_refl _) fun n hn _ => h.row_before.2 n hn

end Stretch

end Stretch

section Cut

variable {l : Language} {t : Tree} {path : List String} {child y : Node} {m : ChildMap Node}
  {before after : List Node} {j j' lo hi : Nat} {text : List Char}

/-- Text of a tree between two offsets that holds a construct and nothing of another: each of its tokens is
the construct's own or a `;`, and no construct has it that neither lies around this one nor in it. -/
structure Tree.CutAround (l : Language) (t : Tree) (path : List String) (n : Node) (lo hi : Nat)
    (text : List Char) : Prop where
  cut : t.source.textBetween? lo hi = some text
  whole : ∃ front own back, n.text? t.source = some own ∧ text = front ++ own ++ back
  tokens : ∀ k, t.source.Meets lo hi k →
    n.tokens.Has k ∨ l = .script ∧ ∃ tok ∈ t.source.tokens[k]?, tok.isPunct ";"
  others : ∀ k, t.source.Meets lo hi k → ∀ q x, t.find? q = some x → x.tokens.Has k →
    q <+: path.dropLast ∨ path <+: q

/-- Only what a container lies in has a token of it that none of its children has. -/
theorem Tree.isPrefix_of_token {p q : List String} {x : Node} {k : Nat} (ht : t.WellFormed)
    (hy : t.find? p = some y) (hm : y.children? = some m) (hk : y.tokens.Has k) (hx : t.find? q = some x)
    (hxk : x.tokens.Has k) : q <+: p ∨ ∃ n ∈ m.nodes, n.tokens.Has k ∧ p ++ [n.signature] <+: q := by
  by_cases hqp : q <+: p
  · exact .inl hqp
  · have hpq : p <+: q := by
      by_contra hpq
      rcases ht.arranged.apart_of_find ht.keyed hy hx hpq hqp with h | h
      · exact absurd (Nat.lt_of_lt_of_le hk.2 (Nat.le_trans h hxk.1)) (Nat.lt_irrefl _)
      · exact absurd (Nat.lt_of_lt_of_le hxk.2 (Nat.le_trans h hk.1)) (Nat.lt_irrefl _)
    obtain ⟨rest, rfl⟩ := hpq
    cases rest with
    | nil => simp at hqp
    | cons sig rest =>
      rw [Tree.find?, Node.find?_append, show t.root.find? p = some y from hy, Option.bind_some,
        Node.find?_cons, Option.bind_eq_some_iff] at hx
      obtain ⟨n, hn, hx⟩ := hx
      have hget : m.get? sig = some n := by rwa [Node.child?, hm] at hn
      obtain ⟨hmem, rfl⟩ := ((ht.keyed.find hy).indexed hm).get?_eq_some.mp hget
      obtain ⟨hfirst, hstop⟩ := (((ht.arranged.find hy).1.child hn).1.find hx).2
      exact .inr ⟨n, hmem, ⟨Nat.le_trans hfirst hxk.1, Nat.lt_of_lt_of_le hxk.2 hstop⟩, rest, by simp⟩

theorem Stretch.cutAround (hst : Stretch y before child after j j') (ht : t.WellFormed)
    (hy : t.find? path = some y) (hm : y.children? = some m)
    (h : y.InRowAt l t.source m before child after) (hlo : t.source.Between j lo)
    (hhi : t.source.Between j' hi) (hcut : t.source.textBetween? lo hi = some text) :
    t.CutAround l (path ++ [child.signature]) child lo hi text := by
  obtain ⟨hne, hstop⟩ := h.nonempty child h.child_mem
  have hout {k : Nat} (hk : t.source.Meets lo hi k) (hck : ¬ child.tokens.Has k) :
      (∀ n ∈ m.nodes, ¬ n.tokens.Has k) ∧ ∃ tok ∈ t.source.tokens[k]?, l.isSpare tok :=
    hst.spare h (hlo.meets ht.laidOut hhi hk) hck
  refine ⟨hcut, ?_, fun k hk => ?_, fun k hk q x hx hxk => ?_⟩
  · have hfirst := Nat.le_trans hlo.before (ht.laidOut.startAt_mono hst.around.1)
    have hlast := Nat.le_trans (ht.laidOut.endAt_mono hst.around.2) hhi.behind
    have hle := Nat.le_of_lt (ht.laidOut.startAt_lt_endAt_of_lt hne (Nat.lt_of_lt_of_le hne hstop))
    obtain ⟨front, rest, -, hrest, rfl⟩ := hlo.boundary.split (ht.laidOut.boundary_startAt _) hhi.boundary
      hfirst (Nat.le_trans hle hlast) hcut
    obtain ⟨own, back, hown, -, rfl⟩ := (ht.laidOut.boundary_startAt _).split
      (ht.laidOut.boundary_endAt _) hhi.boundary hle hlast hrest
    exact ⟨front, own, back, by rw [Node.text?, span_of_nonempty hne, hown], by rw [List.append_assoc]⟩
  · by_cases hck : child.tokens.Has k
    · exact .inl hck
    · obtain ⟨-, tok, htok, hspare⟩ := hout hk hck
      cases l with
      | script => exact .inr ⟨rfl, tok, htok, hspare⟩
      | markup => cases hspare
  · have hyk : y.tokens.Has k := by
      obtain ⟨hj, hj'⟩ := hlo.meets ht.laidOut hhi hk
      obtain ⟨hfirst, hstop⟩ := h.lane_inside child.kind.isClause
      exact ⟨Nat.le_trans hfirst (Nat.le_trans hst.lane.1 hj),
        Nat.lt_of_lt_of_le hj' (Nat.le_trans hst.lane.2 hstop)⟩
    rw [List.dropLast_concat]
    refine (Tree.isPrefix_of_token ht hy hm hyk hx hxk).imp_right ?_
    rintro ⟨n, hn, hnk, hq⟩
    by_cases hck : child.tokens.Has k
    · rwa [h.unique hn h.child_mem hnk hck] at hq
    · exact absurd hnk ((hout hk hck).1 n hn)

end Cut

section Placement

variable {l : Language} {p : Counterparts} {s : Source} {a child previous : Node} {m : ChildMap Node}
  {before after : List Node} {offset : Nat} {text : List Char}

/-- The lane of a container starts behind the brace in front of it. -/
theorem endAt_of_laneStart {clause : Bool} (h : laneStart s a clause = some offset) :
    a.braces?.isSome ∧ offset = s.endAt (a.lane clause).first := by
  obtain ⟨b, hb, rfl⟩ := Option.map_eq_some_iff.mp h
  refine ⟨by rw [hb]; rfl, ?_⟩
  rw [Node.lane_of_braces hb]
  cases clause
  · exact congrArg Prod.snd (Source.byteRange_of_lt (Nat.lt_succ_self b.opening))
  · exact congrArg Prod.snd (Source.byteRange_of_lt (Nat.lt_succ_self b.closing))

/-- The nearest sibling before a child in its lane ends last. -/
theorem stop_le_nearest (hrow : before.Pairwise fun m n => m.tokens.stop ≤ n.tokens.first)
    (hne : ∀ n ∈ before, n.tokens.first < n.tokens.stop)
    (h : (precedingIn before child).head? = some previous) :
    previous ∈ before ∧ child.sharesLane previous = true ∧
      ∀ n ∈ before, child.sharesLane n = true → n.tokens.stop ≤ previous.tokens.stop := by
  rw [precedingIn, List.head?_filter, List.find?_eq_some_iff_append] at h
  obtain ⟨hshares, nearer, farther, hsplit, hnearer⟩ := h
  obtain rfl : before = farther.reverse ++ previous :: nearer.reverse := by
    rw [← List.reverse_reverse before, hsplit]
    simp
  obtain ⟨-, -, hcross⟩ := List.pairwise_append.mp hrow
  refine ⟨by simp, hshares, fun n hn hshares' => ?_⟩
  rw [List.mem_append, List.mem_cons, List.mem_reverse] at hn
  obtain hn | rfl | hn := hn
  · have := hcross n (List.mem_reverse.mpr hn) previous List.mem_cons_self
    have := hne previous (by simp)
    omega
  · exact Nat.le_refl _
  · have := hnearer n (List.mem_reverse.mp hn)
    simp [hshares'] at this

/-- The text is that of a stretch around a child, with a line end behind it or none. -/
def IsStretch (s : Source) (a : Node) (before : List Node) (child : Node) (after : List Node)
    (text : List Char) : Prop :=
  ∃ j j' lo hi cut, Stretch a before child after j j' ∧ s.Between j lo ∧ s.Between j' hi ∧
    s.textBetween? lo hi = some cut ∧ (text = cut ∨ text = cut ++ ['\n'])

/-- From the nearest sibling of the lane on. -/
theorem isStretch_behind (hs : s.LaidOut) (h : a.InRowAt l s m before child after)
    (hprevious : (precedingIn before child).head? = some previous)
    (hcut : s.textBetween? (previous.span s).2 (child.span s).2 = some text) :
    IsStretch s a before child after text := by
  obtain ⟨hmem, hshares, hlast⟩ := stop_le_nearest h.row_before.1
    (fun n hn => (h.nonempty n (h.mem_of_before hn)).1) hprevious
  have hlane := (h.lane previous (h.mem_of_before hmem)).first
  have hne := (h.nonempty previous (h.mem_of_before hmem)).1
  rw [beq_iff_eq.mp hshares] at hlane
  rw [span_of_nonempty hne, span_of_nonempty (h.nonempty child h.child_mem).1] at hcut
  exact ⟨_, _, _, _, text, .upTo h (Nat.le_trans hlane (Nat.le_of_lt hne)) (h.row_before.2 _ hmem) hlast,
    between_endAt hs _, between_endAt hs _, hcut, .inl rfl⟩

/-- From the start of the lane on, where no sibling is before the child. -/
theorem isStretch_first (hs : s.LaidOut) (h : a.InRowAt l s m before child after)
    (hnone : (precedingIn before child).head? = none)
    (hstart : laneStart s a child.kind.isClause = some offset)
    (hcut : s.textBetween? offset (child.span s).2 = some text) : IsStretch s a before child after text := by
  obtain ⟨-, rfl⟩ := endAt_of_laneStart hstart
  rw [span_of_nonempty (h.nonempty child h.child_mem).1] at hcut
  refine ⟨_, _, _, _, text, .upTo h (Nat.le_refl _) (h.lane child h.child_mem).first ?_, between_endAt hs _,
    between_endAt hs _, hcut, .inl rfl⟩
  intro n hn hshares
  rw [List.head?_eq_none_iff, precedingIn, List.filter_eq_nil_iff] at hnone
  exact absurd hshares (hnone n (List.mem_reverse.mpr hn))

theorem Placement.isStretch (h : Placement p before child after offset text) (ht : p.modSource.LaidOut)
    (hrow : p.mod.InRowAt l p.modSource m before child after)
    (hbraces : p.base.braces? = none ↔ p.mod.braces? = none) :
    IsStretch p.modSource p.mod before child after text := by
  have hchild := span_of_nonempty (s := p.modSource) (hrow.nonempty child hrow.child_mem).1
  cases h with
  | behind anchor previous text found nearest cut => exact isStretch_behind ht hrow nearest cut
  | opening offset gap text none start nearest cut =>
    cases hprevious : (precedingIn before child).head? with
    | some previous =>
      rw [hprevious, Option.map_some, Option.some_or] at nearest
      cases nearest
      exact isStretch_behind ht hrow hprevious cut
    | none =>
      rw [hprevious, Option.map_none, Option.none_or] at nearest
      exact isStretch_first ht hrow hprevious nearest cut
  | bare offset text none start nothing cut =>
    obtain ⟨hsome, -⟩ := endAt_of_laneStart start
    rw [hbraces.mpr (Option.map_eq_none_iff.mp nothing)] at hsome
    cases hsome
  | before next text none start nearest cut =>
    have hnext := hrow.mem_of_after (List.mem_of_find?_eq_some nearest)
    rw [hchild, span_of_nonempty (hrow.nonempty next hnext).1] at cut
    exact ⟨_, _, _, _, text, .upToNext hrow nearest, between_startAt ht _, between_startAt ht _, cut, .inl rfl⟩
  | last text none start nearest cut =>
    rw [Node.text?, hchild] at cut
    exact ⟨_, _, _, _, text, .own hrow, between_startAt ht _, between_endAt ht _, cut, .inr rfl⟩

end Placement

end ModWeave
