import ModWeave.Proofs.Merge.Difference
import ModWeave.Proofs.Merge.Splice
import ModWeave.Proofs.Tree.Arrangement

/-! The edits of computed changes never collide: what is replaced or cut lies apart, and no text is put
into the middle of it. -/
namespace ModWeave

/-- The changes with every record settled. -/
def Changes.settledBy (choice : Conflict → Choice) (c : Changes) : Changes :=
  { c with conflicts := c.conflicts.map fun r => r.resolve (choice r) }

section Splicing

/-- The edit cuts the text in front of a character, twice and in order. -/
structure Edit.Fits (s : Source) (e : Edit) : Prop where
  ordered : e.start ≤ e.stop
  start : s.Boundary e.start
  stop : s.Boundary e.stop

/-- Neither edit reaches into the other. -/
def Edit.Beside (e f : Edit) : Prop := e.stop ≤ f.start ∨ f.stop ≤ e.start

variable {s : Source} {es : List Edit}

private theorem splice_ok {cursor : Nat} (hcursor : s.Boundary cursor) (hfits : ∀ e ∈ es, e.Fits s)
    (hes : (es.map fun e => (e.start, e.stop)).Pairwise fun e f => e.2 ≤ f.1)
    (hle : ∀ e ∈ es, cursor ≤ e.start) : ∃ out, splice s.text cursor es = .ok out := by
  induction es generalizing cursor with
  | nil =>
    obtain ⟨before, after, hs, rfl⟩ := hcursor
    exact ⟨after, by rw [splice, hs, Text.dropBytes?_append]⟩
  | cons e es ih =>
    rw [List.forall_mem_cons] at hfits hle
    rw [List.map_cons, List.pairwise_cons] at hes
    obtain ⟨kept, hkept⟩ := hcursor.between hfits.1.start hle.1
    obtain ⟨out, hout⟩ := ih hfits.1.stop hfits.2 hes.2 fun f hf =>
      hes.1 _ (List.mem_map_of_mem hf)
    rw [Source.textBetween?] at hkept
    rw [splice, if_neg (Nat.not_lt.mpr hle.1), hkept, hout]
    exact ⟨_, rfl⟩

/-- Edits that do not reach into one another are carried out, in whatever order they are given. -/
theorem splice_of_beside (hfits : ∀ e ∈ es, e.Fits s) (hes : es.Pairwise Edit.Beside) :
    ∃ out, splice s.text 0 (es.mergeSort Edit.notAfter) = .ok out := by
  have hperm := List.mergeSort_perm es Edit.notAfter
  have hmem {e : Edit} (he : e ∈ es.mergeSort Edit.notAfter) : e.Fits s :=
    hfits e (hperm.mem_iff.mp he)
  have hsorted := List.pairwise_mergeSort Edit.notAfter_trans Edit.notAfter_total es
  have hbeside : (es.mergeSort Edit.notAfter).Pairwise Edit.Beside :=
    (hperm.pairwise_iff fun h => Or.symm h).mpr hes
  refine splice_ok ⟨[], s.text, rfl, rfl⟩ (fun e he => hmem he) ?_ fun e _ => Nat.zero_le _
  refine List.pairwise_map.mpr ((hsorted.and hbeside).imp_of_mem fun {e f} he hf h => ?_)
  have he := (hmem he).ordered
  have hf := (hmem hf).ordered
  obtain ⟨hnotAfter, hbeside⟩ := h
  simp only [Edit.notAfter, Bool.or_eq_true, decide_eq_true_eq, Bool.and_eq_true, beq_iff_eq]
    at hnotAfter
  -- edits at one place are in order by their ends, so that only insertions are left to compare
  rcases hbeside with h | h <;> omega

end Splicing

section Placed

variable {base mod : Tree} {names : SourceNames} {c : Changes} {a : Addition}

/-- The addition is a child that only the mod's container has, and goes where that is placed. -/
def PlacedAt (base mod : Tree) (a : Addition) : Prop :=
  ∃ (x y : Node) (children : ChildMap Node) (z : List Node × Node × List Node),
    base.find? a.parent = some x ∧ mod.find? a.parent = some y ∧ x.children? = some children ∧
      AdditionOf ⟨base.source, mod.source, x, y, children⟩ a.parent z a

theorem placedAt_of_diff (hbase : base.WellFormed) (hmod : mod.WellFormed)
    (h : diff names base mod = some c) : ∀ a ∈ c.additions, PlacedAt base mod a := by
  refine diff_induction (Q := fun _ _ _ c => ∀ a ∈ c.additions, PlacedAt base mod a) ?_ hbase.keyed
    hmod.keyed hbase.container hmod.container h
  intro path h h' b b' ns ns' index index' parts as hfind hfind' hopen hidx hidx' hparts has a ha
  rcases List.mem_append.mp ha with ha | ha
  · obtain ⟨part, hpart, ha⟩ := List.mem_flatMap.mp ha
    obtain ⟨n, -, hchild⟩ := exists_of_forall₂_right hparts hpart
    cases hchild with
    | removed | same | modified => cases ha
    | inside twin part found differ known => exact known a ha
  · obtain ⟨z, -, hz⟩ := exists_of_forall₂_right has ha
    refine ⟨_, _, ⟨ns, index⟩, z, ?_, ?_, rfl, hz.parent ▸ hz⟩
    · rw [hz.parent]
      exact hfind
    · rw [hz.parent]
      exact hfind'

/-- The bytes of a node that is not empty. -/
theorem span_of_nonempty {s : Source} {n : Node} (h : n.tokens.first < n.tokens.stop) :
    n.span s = (s.startAt n.tokens.first, s.endAt n.tokens.stop) := Source.byteRange_of_lt h

/-- The offset lies between the tokens before token `k` and the others. -/
structure Source.Between (s : Source) (k offset : Nat) : Prop where
  behind : s.endAt k ≤ offset
  before : offset ≤ s.startAt k
  boundary : s.Boundary offset

theorem between_endAt {s : Source} (hs : s.LaidOut) (k : Nat) : s.Between k (s.endAt k) :=
  ⟨Nat.le_refl _, hs.endAt_le_startAt k, hs.boundary_endAt k⟩

theorem between_startAt {s : Source} (hs : s.LaidOut) (k : Nat) : s.Between k (s.startAt k) :=
  ⟨hs.endAt_le_startAt k, Nat.le_refl _, hs.boundary_startAt k⟩

section

variable {p : Counterparts} {before after : List Node} {child : Node} {offset : Nat} {text : List Char}

private theorem gap_of_laneStart {clause : Bool}
    (h : laneStart p.baseSource p.base clause = some offset) :
    ∃ k, p.base.Gap k ∧ offset = p.baseSource.endAt k := by
  obtain ⟨b, hb, rfl⟩ := Option.map_eq_some_iff.mp h
  cases clause with
  | true =>
    refine ⟨b.closing + 1, .inr ⟨b, hb, .inr rfl⟩, ?_⟩
    rw [if_pos rfl, Source.byteRange_of_lt (Nat.lt_succ_self _)]
  | false =>
    refine ⟨b.opening + 1, .inr ⟨b, hb, .inl rfl⟩, ?_⟩
    rw [if_neg (by decide), Source.byteRange_of_lt (Nat.lt_succ_self _)]

/-- A child is placed in a gap of the base's container, or at the end. -/
theorem Placement.gap (h : Placement p before child after offset text) (hs : p.baseSource.LaidOut)
    (hchildren : p.base.children? = some p.baseChildren) (hkeyed : p.base.Keyed)
    (harranged : p.base.Arranged) :
    ∃ k, (p.base.Gap k ∨ k = p.baseSource.tokens.length) ∧ p.baseSource.Between k offset := by
  have hchild {sig : String} {n : Node} : p.base.child? sig = some n ↔ p.baseChildren.get? sig = some n := by
    rw [Node.child?, hchildren, Option.bind_some]
  have hlane {offset : Nat} (start : laneStart p.baseSource p.base child.kind.isClause = some offset) :
      ∃ k, (p.base.Gap k ∨ k = p.baseSource.tokens.length) ∧ p.baseSource.Between k offset := by
    obtain ⟨k, hk, rfl⟩ := gap_of_laneStart start
    exact ⟨k, .inl hk, between_endAt hs k⟩
  have hfront : ∃ k, (p.base.Gap k ∨ k = p.baseSource.tokens.length) ∧
      p.baseSource.Between k (frontOf p child) := by
    rw [frontOf]
    split
    · rename_i first hfirst
      have hget : p.baseChildren.get? first.signature = some first :=
        (hkeyed.indexed hchildren).get?_eq_some.mpr ⟨List.mem_of_find?_eq_some hfirst, rfl⟩
      have hne := (harranged.child (hchild.mpr hget)).2.2
      rw [span_of_nonempty hne]
      exact ⟨_, .inl (.inl ⟨_, _, hchild.mpr hget, .inl rfl⟩), between_startAt hs _⟩
    · have hend : p.baseSource.startAt p.baseSource.tokens.length =
          Text.byteLength p.baseSource.text := by simp [Source.startAt]
      rw [← hend]
      exact ⟨_, .inr rfl, between_startAt hs _⟩
  cases h with
  | behind anchor previous text found =>
    obtain ⟨n, -, hn⟩ := List.exists_of_findSome?_eq_some found
    have hne := (harranged.child (hchild.mpr hn)).2.2
    rw [span_of_nonempty hne]
    exact ⟨_, .inl (.inl ⟨_, _, hchild.mpr hn, .inr rfl⟩), between_endAt hs _⟩
  | opening offset gap text none start => exact hlane start
  | bare offset text none start => exact hlane start
  | before next text none start => exact hfront
  | last text none start => exact hfront

end

end Placed

section Settled

variable {l : Language} {text text' : List Char} {base mod : Tree} {names : SourceNames} {c : Changes}
  {r : Conflict} {e f : Edit}

/-- A node found below the root is written somewhere in the text. -/
theorem Tree.WellFormed.text_of_find {t : Tree} (h : t.WellFormed) {path : List String} {sig : String}
    {n : Node} (hn : t.find? (path ++ [sig]) = some n) : ∃ cs, n.text? t.source = some cs := by
  have hne := h.arranged.nonempty_of_find hn
  have hstop := (h.arranged.find hn).2.stop
  rw [h.whole] at hstop
  have hlt := h.laidOut.startAt_lt_endAt_of_lt hne (Nat.lt_of_lt_of_le hne hstop)
  rw [Node.text?, span_of_nonempty hne]
  exact (h.laidOut.boundary_startAt _).between (h.laidOut.boundary_endAt _) (Nat.le_of_lt hlt)

/-- The edit replaces the construct of a record. -/
structure Reported.MadeInto (base : Tree) (r : Conflict) (e : Edit) : Prop where
  nonempty : r.base.node.tokens.first < r.base.node.tokens.stop
  within : r.base.node.tokens.stop ≤ base.source.tokens.length
  start : e.start = base.source.startAt r.base.node.tokens.first
  stop : e.stop = base.source.endAt r.base.node.tokens.stop

/-- A record that is settled for the base has no edit. -/
theorem edit_of_kept (r : Conflict) {c : Choice} (h : c.takesMod = false) : (r.resolve c).edit = .ok none := by
  simp [Conflict.edit, Conflict.resolve, h]

theorem edit_of_dropped {r : Conflict} {c : Choice} (h : c.takesMod = true) (hm : r.mod = none) :
    (r.resolve c).edit =
      .ok (some ⟨(r.base.node.span r.base.source).1, (r.base.node.span r.base.source).2, []⟩) := by
  simp [Conflict.edit, Conflict.resolve, h, hm]

theorem edit_of_taken {r : Conflict} {c : Choice} {m : Excerpt} {text : List Char}
    (h : c.takesMod = true) (hm : r.mod = some m) (htext : m.text? = some text) :
    (r.resolve c).edit =
      .ok (some ⟨(r.base.node.span r.base.source).1, (r.base.node.span r.base.source).2, text⟩) := by
  simp [Conflict.edit, Conflict.resolve, h, hm, htext]

/-- The construct of a record takes up tokens of the base, and the bytes of these. -/
theorem Reported.bytes (hbase : base.WellFormed) (hr : Reported names base mod r) :
    r.base.node.tokens.first < r.base.node.tokens.stop ∧
      r.base.node.tokens.stop ≤ base.source.tokens.length ∧
      r.base.node.span r.base.source = (base.source.startAt r.base.node.tokens.first,
        base.source.endAt r.base.node.tokens.stop) := by
  obtain ⟨hpath, -, -⟩ := hr.place
  obtain ⟨hfind, hsource⟩ := hr.found
  rw [hpath] at hfind
  have hne := hbase.arranged.nonempty_of_find hfind
  have hstop := (hbase.arranged.find hfind).2.stop
  rw [hbase.whole] at hstop
  exact ⟨hne, hstop, by rw [hsource, span_of_nonempty hne]⟩

/-- The mod's construct is written somewhere. -/
theorem Reported.written (hmod : mod.WellFormed) (hr : Reported names base mod r) {m : Excerpt}
    (hm : r.mod = some m) : ∃ text, m.text? = some text := by
  obtain ⟨hfind, hsource⟩ := hr.found_mod hm
  rw [hr.place.1] at hfind
  obtain ⟨text, htext⟩ := hmod.text_of_find hfind
  exact ⟨text, by rw [Excerpt.text?, hsource, htext]⟩

/-- Every record of a diff makes an edit, or none when the base wins. -/
theorem Reported.edit (hbase : base.WellFormed) (hmod : mod.WellFormed) (hr : Reported names base mod r)
    (choice : Choice) : ∃ e, (r.resolve choice).edit = .ok e ∧ ∀ f ∈ e, MadeInto base r f := by
  obtain ⟨hne, hstop, hspan⟩ := hr.bytes hbase
  cases htakes : choice.takesMod with
  | false => exact ⟨none, edit_of_kept r htakes, by simp⟩
  | true =>
    cases hm : r.mod with
    | none => exact ⟨_, edit_of_dropped htakes hm, by simpa [hspan] using ⟨hne, hstop, rfl, rfl⟩⟩
    | some m =>
      obtain ⟨text, htext⟩ := hr.written hmod hm
      exact ⟨_, edit_of_taken htakes hm htext, by simpa [hspan] using ⟨hne, hstop, rfl, rfl⟩⟩

theorem Reported.MadeInto.fits (hs : base.source.LaidOut) (h : MadeInto base r e) :
    e.Fits base.source := by
  have hlt := hs.startAt_lt_endAt_of_lt h.nonempty (Nat.lt_of_lt_of_le h.nonempty h.within)
  refine ⟨?_, ?_, ?_⟩
  · rw [h.start, h.stop]
    exact Nat.le_of_lt hlt
  · rw [h.start]
    exact hs.boundary_startAt _
  · rw [h.stop]
    exact hs.boundary_endAt _

/-- Different records replace constructs that lie apart. -/
theorem Reported.beside (hbase : base.WellFormed) (hr : Reported names base mod r) {r' : Conflict}
    (hr' : Reported names base mod r') (hne : r.path ≠ r'.path) (he : MadeInto base r e)
    (hf : MadeInto base r' f) : e.Beside f := by
  have hpq : ¬ r.path <+: r'.path := fun h => hne (hr.eq_of_isPrefix hr' h ▸ rfl)
  have hqp : ¬ r'.path <+: r.path := fun h => hne (hr'.eq_of_isPrefix hr h ▸ rfl)
  have hapart := hbase.arranged.apart_of_find hbase.keyed hr.found.1 hr'.found.1 hpq hqp
  unfold Edit.Beside
  rw [he.start, he.stop, hf.start, hf.stop]
  exact hapart.imp hbase.laidOut.endAt_le_startAt_of_le hbase.laidOut.endAt_le_startAt_of_le

/-- An addition goes to a gap of its container, or to the end. -/
theorem PlacedAt.gap (hbase : base.WellFormed) {a : Addition} (ha : PlacedAt base mod a) :
    ∃ x k, base.find? a.parent = some x ∧ (x.Gap k ∨ k = base.source.tokens.length) ∧
      base.source.Between k a.offset := by
  obtain ⟨x, y, children, z, hx, -, hchildren, -, -, hplaced⟩ := ha
  obtain ⟨k, hk, hbetween⟩ := (placement_cases hplaced).gap hbase.laidOut hchildren
    (hbase.keyed.find hx) (hbase.arranged.find hx).1
  exact ⟨x, k, hx, hk, hbetween⟩

theorem PlacedAt.fits (hbase : base.WellFormed) {a : Addition} (ha : PlacedAt base mod a) :
    a.edit.Fits base.source := by
  obtain ⟨x, k, -, -, hbetween⟩ := ha.gap hbase
  exact ⟨Nat.le_refl _, hbetween.boundary, hbetween.boundary⟩

/-- What is added goes before or behind each construct that is replaced, because no record lies above an
open container. -/
theorem Reported.beside_addition (hbase : base.WellFormed) (hr : Reported names base mod r)
    (he : MadeInto base r e) {a : Addition} (hopen : OpenAt base mod a.parent)
    (ha : PlacedAt base mod a) : e.Beside a.edit := by
  obtain ⟨x, k, hx, hk, hbetween⟩ := ha.gap hbase
  have hqp : ¬ r.path <+: a.parent := fun h => hr.place.2.2 (hopen.of_isPrefix h)
  have hkr : k ≤ r.base.node.tokens.first ∨ r.base.node.tokens.stop ≤ k := by
    rcases hk with hk | rfl
    · exact hbase.arranged.gap_of_find hbase.keyed hx hk hr.found.1 hqp
    · exact .inr he.within
  unfold Edit.Beside
  rw [he.start, he.stop]
  rcases hkr with hkr | hkr
  · exact .inr (Nat.le_trans hbetween.before (hbase.laidOut.startAt_mono hkr))
  · exact .inl (Nat.le_trans (hbase.laidOut.endAt_mono hkr) hbetween.behind)

/-- Each record of a diff, settled somehow, is made into an edit of what it replaces, if into any. -/
theorem exists_edits (hb : base.WellFormed) (hm : mod.WellFormed) {records settled : List Conflict}
    (hreported : ∀ r ∈ records, Reported names base mod r)
    (hsettled : List.Forall₂ (fun r r' => ∃ choice, r' = r.resolve choice) records settled) :
    ∃ chosen, List.Forall₂ (fun r e => Reported names base mod r ∧
      ∀ f ∈ e, Reported.MadeInto base r f) records chosen ∧ settled.mapM Conflict.edit = .ok chosen := by
  induction hsettled with
  | nil => exact ⟨[], .nil, rfl⟩
  | cons hr _ ih =>
    rw [List.forall_mem_cons] at hreported
    obtain ⟨choice, rfl⟩ := hr
    obtain ⟨e, he, hmade⟩ := hreported.1.edit hb hm choice
    obtain ⟨chosen, hchosen, hmapM⟩ := ih hreported.2
    refine ⟨e :: chosen, .cons ⟨hreported.1, hmade⟩ hchosen, ?_⟩
    rw [List.mapM_cons, he, hmapM]
    rfl

/-- However each record of a diff is settled, the merged text can be made: no two edits reach into one
another, and every edit cuts the text in front of characters. -/
theorem materialize_of_resolved (hbase : l.parse text = .ok base) (hmod : l.parse text' = .ok mod)
    (h : diff names base mod = some c) {settled : List Conflict}
    (hsettled : List.Forall₂ (fun r r' => ∃ choice, r' = r.resolve choice) c.conflicts settled) :
    ∃ out, materialize base { c with conflicts := settled } = .ok out := by
  have hb := Language.wellFormed_of_parse hbase
  have hm := Language.wellFormed_of_parse hmod
  have hexact := exactAt_of_diff hbase hmod h
  have hplaced := placedAt_of_diff hb hm h
  have hopen (a : Addition) (ha : a ∈ c.additions) : OpenAt base mod a.parent :=
    (hexact.mem_additions.mp ⟨a, ha, rfl, rfl⟩).parent
  obtain ⟨chosen, hchosen, hmapM⟩ :=
    exists_edits hb hm (fun r hr => hexact.mem_conflicts.mp hr) hsettled
  have hedits : Changes.edits { c with conflicts := settled } =
      .ok (chosen.flatMap Option.toList ++ c.additions.map Addition.edit) := by
    rw [Changes.edits, hmapM, ← List.filterMap_eq_flatMap_toList]
    rfl
  have hsource {e : Edit} (he : e ∈ chosen.flatMap Option.toList) :
      ∃ r, Reported names base mod r ∧ Reported.MadeInto base r e := by
    obtain ⟨o, ho, he⟩ := List.mem_flatMap.mp he
    obtain ⟨r, -, hr, hmade⟩ := exists_of_forall₂_right hchosen ho
    exact ⟨r, hr, hmade e (by simpa using he)⟩
  rw [materialize, hedits]
  refine splice_of_beside (fun e he => ?_) (List.pairwise_append.mpr ⟨?_, ?_, fun e he f hf => ?_⟩)
  · rcases List.mem_append.mp he with he | he
    · obtain ⟨r, -, hmade⟩ := hsource he
      exact hmade.fits hb.laidOut
    · obtain ⟨a, ha, rfl⟩ := List.mem_map.mp he
      exact (hplaced a ha).fits hb
  · refine pairwise_flatMap_of_forall₂ (P := fun r e => Reported names base mod r ∧
      Reported.MadeInto base r e) hchosen hexact.distinct (fun r o ho e he => ?_) (fun r o ho => ?_) ?_
    · exact ⟨ho.1, ho.2 e (by simpa using he)⟩
    · cases o <;> simp
    · exact fun r r' e f hne he hf => he.1.beside hb hf.1 hne he.2 hf.2
  · exact List.pairwise_map.mpr (List.pairwise_of_forall fun a b => Nat.le_total _ _)
  · obtain ⟨r, hr, hmade⟩ := hsource he
    obtain ⟨a, ha, rfl⟩ := List.mem_map.mp hf
    exact hr.beside_addition hb hmade (hopen a ha) (hplaced a ha)

/-- Whatever is chosen for each record of a diff, the merged text can be made. -/
theorem materialize_succeeds (hbase : l.parse text = .ok base) (hmod : l.parse text' = .ok mod)
    (h : diff names base mod = some c) (choice : Conflict → Choice) :
    ∃ out, materialize base (c.settledBy choice) = .ok out :=
  materialize_of_resolved hbase hmod h
    (List.forall₂_map_right_iff.mpr (List.forall₂_same.mpr fun r _ => ⟨choice r, rfl⟩))

end Settled

set_option maxRecDepth 100000 in
theorem materialize_of_nested_elements : ∃ base mod c,
    Language.markup.parse "<a><b/><c/></a>".toList = .ok base ∧
    Language.markup.parse "<a><b x=\"1\"/><d/></a>".toList = .ok mod ∧
    diff ⟨"run.xml", "game", "mod"⟩ base mod = some c ∧ (c.conflicts.length, c.additions.length) = (2, 1) ∧
    ∃ out, materialize base (c.settledBy fun r => if r.isRemoval then .keepBase else .takeMod) = .ok out := by
  obtain ⟨base, mod, c, hbase, hmod, hc, hcounts⟩ := exists_diff
    (P := fun _ _ c => (c.conflicts.length, c.additions.length) == (2, 1)) .markup
    ⟨"run.xml", "game", "mod"⟩ "<a><b/><c/></a>".toList "<a><b x=\"1\"/><d/></a>".toList
    (by decide +kernel)
  exact ⟨base, mod, c, hbase, hmod, hc, beq_iff_eq.mp hcounts, materialize_succeeds hbase hmod hc _⟩

end ModWeave
