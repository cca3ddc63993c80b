import ModWeave.Proofs.Merge.Edits
import ModWeave.Proofs.Tree.Order

/-! A diff is computed wherever the mod's children are in the order of its text: no gap ends before it
starts. -/
namespace ModWeave

/-- The node takes up tokens of the source. -/
structure Node.In (n : Node) (s : Source) : Prop where
  nonempty : n.tokens.first < n.tokens.stop
  within : n.tokens.stop ≤ s.tokens.length

section Placement

variable {s : Source} {n m : Node} {gap : Nat}

/-- From a boundary in front of where a node ends up to there stands a part of the text. -/
private theorem textBetween_stop (hs : s.LaidOut) (hn : n.In s) (hb : s.Boundary gap)
    (hle : gap ≤ s.endAt n.tokens.stop) : ∃ cs, s.textBetween? gap (n.span s).2 = some cs := by
  rw [span_of_nonempty hn.nonempty]
  exact hb.between (hs.boundary_endAt _) hle

private theorem text_of_in (hs : s.LaidOut) (hn : n.In s) : ∃ cs, n.text? s = some cs := by
  have hlt := hs.startAt_lt_endAt_of_lt hn.nonempty (Nat.lt_of_lt_of_le hn.nonempty hn.within)
  rw [Node.text?, span_of_nonempty hn.nonempty]
  exact (hs.boundary_startAt _).between (hs.boundary_endAt _) (Nat.le_of_lt hlt)

private theorem textBetween_start (hs : s.LaidOut) (hn : n.In s) (hm : m.In s)
    (hle : n.tokens.stop ≤ m.tokens.first) :
    ∃ cs, s.textBetween? (n.span s).1 (m.span s).1 = some cs := by
  have hnonempty := hn.nonempty
  rw [span_of_nonempty hn.nonempty, span_of_nonempty hm.nonempty]
  exact (hs.boundary_startAt _).between (hs.boundary_startAt _) (hs.startAt_mono (by omega))

variable {p : Counterparts} {before after : List Node} {child : Node}

/-- A child in order is placed. -/
theorem placement_of_inOrder (ht : p.modSource.LaidOut)
    (hin : ∀ n ∈ before ++ child :: after, n.In p.modSource)
    (hrow : (before ++ child :: after).Pairwise fun m n => m.tokens.stop ≤ n.tokens.first)
    (hbehind : ∀ b ∈ p.mod.braces?, b.Before child) :
    ∃ offset text, placement p before child after = some (offset, text) := by
  obtain ⟨-, hrow', hcross⟩ := List.pairwise_append.mp hrow
  rw [List.pairwise_cons] at hrow'
  have hchild : child.In p.modSource := hin child (by simp)
  -- the gap before the child starts in front of the child
  have hgap (gap : Nat) (h : gapStart p before child = some gap) :
      ∃ cs, p.modSource.textBetween? gap (child.span p.modSource).2 = some cs := by
    have hnonempty := hchild.nonempty
    rw [gapStart] at h
    split at h
    · rename_i previous hprevious
      have hmem : previous ∈ before := by
        have := List.mem_of_mem_filter (List.mem_of_mem_head? hprevious)
        rwa [List.mem_reverse] at this
      have hprev := hin previous (List.mem_append_left _ hmem)
      have hle := hcross previous hmem child List.mem_cons_self
      rw [span_of_nonempty hprev.nonempty] at h
      cases h
      exact textBetween_stop ht hchild (ht.boundary_endAt _) (ht.endAt_mono (by omega))
    · obtain ⟨b, hb, rfl⟩ := Option.map_eq_some_iff.mp h
      obtain ⟨hopening, hclosing⟩ := hbehind b hb
      split
      · rename_i hclause
        have hlt := hclosing hclause
        have hle : b.closing + 1 ≤ child.tokens.stop := by omega
        rw [Source.byteRange_of_lt (Nat.lt_succ_self b.closing)]
        dsimp only
        exact textBetween_stop ht hchild (ht.boundary_endAt _) (ht.endAt_mono hle)
      · have hle : b.opening + 1 ≤ child.tokens.stop := by omega
        rw [Source.byteRange_of_lt (Nat.lt_succ_self b.opening)]
        dsimp only
        exact textBetween_stop ht hchild (ht.boundary_endAt _) (ht.endAt_mono hle)
  obtain ⟨text, htext⟩ := text_of_in ht hchild
  have hnext (next : Node) (h : after.find? child.sharesLane = some next) :
      ∃ cs, p.modSource.textBetween? (child.span p.modSource).1 (next.span p.modSource).1 = some cs := by
    have hmem := List.mem_of_find?_eq_some h
    exact textBetween_start ht hchild (hin next (by simp [hmem])) (hrow'.1 next hmem)
  suffices (placement p before child after).isSome by
    obtain ⟨⟨offset, text⟩, h⟩ := Option.isSome_iff_exists.mp this
    exact ⟨offset, text, h⟩
  rw [placement_eq]
  cases slotOf p before child with
  | some offset =>
    cases hstart : gapStart p before child with
    | some gap =>
      obtain ⟨cs, hcs⟩ := hgap gap hstart
      simp [placedIn, hcs]
    | none => simp [placedIn, htext]
  | none =>
    rw [placedIn, placedInFront]
    cases hfind : after.find? child.sharesLane with
    | some next =>
      obtain ⟨cs, hcs⟩ := hnext next hfind
      simp [hcs]
    | none => simp [htext]

theorem additions_of_inOrder {path : List String} (ht : p.modSource.LaidOut)
    (hin : ∀ n ∈ before ++ after, n.In p.modSource)
    (hrow : (before ++ after).Pairwise fun m n => m.tokens.stop ≤ n.tokens.first)
    (hbehind : ∀ n ∈ before ++ after, ∀ b ∈ p.mod.braces?, b.Before n) :
    ∃ as, additions p path before after = some as := by
  induction after generalizing before with
  | nil => exact ⟨[], rfl⟩
  | cons child after ih =>
    obtain ⟨more, hmore⟩ : ∃ more, additions p path (before ++ [child]) after = some more :=
      ih (by simpa using hin) (by simpa using hrow) (by simpa using hbehind)
    obtain ⟨offset, text, hplaced⟩ := placement_of_inOrder ht hin hrow (hbehind child (by simp))
    rw [additions, hmore, Option.bind_eq_bind, Option.bind_some]
    split
    · exact ⟨_, rfl⟩
    · rw [hplaced]
      exact ⟨_, rfl⟩

end Placement

section Diff

variable {names : SourceNames} {s t : Source}

/-- What is looked into is in order, at every depth. -/
private structure Readable (t : Source) (n : Node) : Prop where
  inOrder : n.InOrder
  arranged : n.Arranged
  within : n.tokens.stop ≤ t.tokens.length

private theorem Readable.child {head : Head} {braces : Option Braces} {nodes : List Node}
    {index : List (String × Nat)} (h : Readable t (.container head braces nodes index)) {n : Node}
    (hn : n ∈ nodes) : Readable t n ∧ n.In t := by
  obtain ⟨hin, harr, hwithin⟩ := h
  cases hin with
  | container _ _ _ _ row nonempty behind inner =>
    cases harr with
    | container _ _ _ _ frame apart held innerArr =>
      have hstop := (held n hn).inside.stop
      have hle : n.tokens.stop ≤ t.tokens.length := Nat.le_trans hstop hwithin
      exact ⟨⟨inner n hn, innerArr n hn, hle⟩, nonempty n hn, hle⟩

mutual

private theorem diffInside_of_readable (ht : t.LaidOut) (path : List String) (x y : Node)
    (hy : Readable t y) : ∃ c, diffInside names s t path x y = some c := by
  match x, y with
  | .container h braces nodes index, .container h' braces' nodes' index' =>
    obtain ⟨shared, hshared⟩ := diffChildren_of_readable ht path nodes ⟨nodes', index'⟩
      fun n hn => (hy.child hn).1
    have hin : ∀ n ∈ nodes', n.In t := fun n hn => (hy.child hn).2
    obtain ⟨added, hadded⟩ : ∃ added, additions ⟨s, t, .container h braces nodes index,
        .container h' braces' nodes' index', ⟨nodes, index⟩⟩ path [] nodes' = some added := by
      cases hy.inOrder with
      | container _ _ _ _ row nonempty behind inner => exact additions_of_inOrder ht hin row behind
    rw [diffInside, hshared, Option.bind_eq_bind, Option.bind_some, hadded]
    exact ⟨_, rfl⟩
  | .leaf _, .leaf _ => exact ⟨_, by rw [diffInside]; simp⟩
  | .leaf _, .container .. => exact ⟨_, by rw [diffInside]; simp⟩
  | .container .., .leaf _ => exact ⟨_, by rw [diffInside]; simp⟩

private theorem diffChildren_of_readable (ht : t.LaidOut) (path : List String) (nodes : List Node)
    (others : ChildMap Node) (hothers : ∀ n ∈ others.nodes, Readable t n) :
    ∃ c, diffChildren names s t path nodes others = some c := by
  match nodes with
  | [] => exact ⟨_, by rw [diffChildren]⟩
  | child :: rest =>
    obtain ⟨more, hmore⟩ := diffChildren_of_readable ht path rest others hothers
    rw [diffChildren_cons, hmore]
    cases hget : others.get? child.signature with
    | none => exact ⟨_, rfl⟩
    | some twin =>
      obtain ⟨i, -, htwin⟩ := Option.bind_eq_some_iff.mp hget
      obtain ⟨inner, hinner⟩ := diffInside_of_readable ht (path ++ [child.signature]) child twin
        (hothers twin (List.mem_of_getElem? htwin))
      dsimp only
      split
      · exact ⟨_, rfl⟩
      · split
        · rw [hinner]
          exact ⟨_, rfl⟩
        · exact ⟨_, rfl⟩

end

end Diff

/-- A tree is compared to the end with one in which nothing takes the place of another. -/
theorem diff_completes {l : Language} {text : List Char} {mod : Tree} (names : SourceNames) (base : Tree)
    (hmod : l.parse text = .ok mod)
    (hnew : ∀ cs, l.constructs mod.source = .ok cs → redefinesAmong .empty cs = false) :
    ∃ c, diff names base mod = some c := by
  have hm := Language.wellFormed_of_parse hmod
  refine diffInside_of_readable hm.laidOut [] base.root mod.root
    ⟨Language.inOrder_of_parse hmod hnew, hm.arranged, ?_⟩
  rw [hm.whole]

section Same

variable {names : SourceNames} {base mod : Tree}

private theorem additions_of_contained {p : Counterparts} {path : List String} {before after : List Node}
    (h : ∀ n ∈ after, p.baseChildren.contains n.signature = true) :
    additions p path before after = some [] := by
  induction after generalizing before with
  | nil => rfl
  | cons child after ih =>
    rw [List.forall_mem_cons] at h
    rw [additions, ih h.2, Option.bind_eq_bind, Option.bind_some, if_pos h.1]
    rfl

private theorem diffChildren_of_same {s t : Source} {path : List String} {nodes : List Node}
    {others : ChildMap Node} (h : ∀ n ∈ nodes, ∃ twin, others.get? n.signature = some twin ∧
      sameContent s t n twin) : diffChildren names s t path nodes others = some .none := by
  induction nodes with
  | nil => rw [diffChildren]
  | cons n nodes ih =>
    rw [List.forall_mem_cons] at h
    obtain ⟨twin, htwin, hsame⟩ := h.1
    rw [diffChildren_cons, ih h.2, htwin]
    simp only [hsame, if_true]
    rfl

/-- Trees of the same content have no changes between them. -/
theorem diff_of_sameContent (hbase : base.root.Keyed) (hmod : mod.root.Keyed)
    (hcontainer : base.root.isContainer) (h : base.sameContent mod) :
    diff names base mod = some .none := by
  unfold Tree.sameContent at h
  rw [diff]
  cases hb : base.root with
  | leaf => rw [hb] at hcontainer; cases hcontainer
  | container head braces nodes index =>
    cases hm : mod.root with
    | leaf => rw [hb, hm] at h; cases h
    | container head' braces' nodes' index' =>
      rw [hb, hm] at h
      rw [hb] at hbase
      rw [hm] at hmod
      obtain ⟨-, hlen, htwin⟩ := sameContent_container.mp h
      have hidx := hbase.indexed rfl
      have hidx' := hmod.indexed rfl
      have hcovered := hidx.covered hidx' hlen fun n hn => by
        obtain ⟨twin, htw, -⟩ := htwin n hn
        rw [← hidx'.get?_isSome, htw]
        rfl
      rw [diffInside, diffChildren_of_same htwin, Option.bind_eq_bind, Option.bind_some,
        additions_of_contained hcovered]
      rfl

end Same

end ModWeave
