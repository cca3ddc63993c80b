import ModWeave.Proofs.Merge.Completion
import ModWeave.Proofs.Merge.Merged
import ModWeave.Proofs.Merge.Stretch

/-! Additions carry their own construct, with what stands around it and belongs to none, and put it where
such a construct may stand: a statement into the body, a clause behind it. -/
namespace ModWeave

section Landing

variable {l : Language} {p : Counterparts} {s : Source} {a child : Node} {m : ChildMap Node}
  {before after : List Node} {clause : Bool} {offset : Nat} {text : List Char}

/-- The offset is where a token starts or ends. -/
def Source.Edge (s : Source) (offset : Nat) : Prop := ∃ t ∈ s.tokens, offset = t.start ∨ offset = t.stop

theorem Source.edge_startAt {k : Nat} (hk : k < s.tokens.length) : s.Edge (s.startAt k) :=
  ⟨s.tokens[k], List.getElem_mem hk, .inl (startAt_of_getElem (List.getElem?_eq_getElem hk))⟩

theorem Source.edge_endAt {k : Nat} (hk : k < s.tokens.length) : s.Edge (s.endAt (k + 1)) :=
  ⟨s.tokens[k], List.getElem_mem hk, .inr (endAt_succ_of_getElem (List.getElem?_eq_getElem hk))⟩

/-- Where a child of a lane is put into a container: behind one that is there, behind the brace in front of
the lane, or in front of everything in a root. -/
inductive Landing (s : Source) (a : Node) (m : ChildMap Node) (clause : Bool) : Nat → Prop
  | behind (n : Node) (hn : n ∈ m.nodes) (shares : n.kind.isClause = clause) :
      Landing s a m clause (s.endAt n.tokens.stop)
  | opening (b : Braces) (hb : a.braces? = some b) : Landing s a m clause (s.endAt (a.lane clause).first)
  | front (n : Node) (hn : n ∈ m.nodes) (bare : a.braces? = none) :
      Landing s a m clause (s.startAt n.tokens.first)
  | alone (nothing : m.nodes = []) (bare : a.braces? = none) :
      Landing s a m clause (Text.byteLength s.text)

theorem Placement.landing (h : Placement p before child after offset text)
    (hbase : p.base.Housed l p.baseSource p.baseChildren) (hkeyed : p.baseChildren.Indexed)
    (hlabels : ∀ n ∈ before, l.Labels n) (hplain : p.base.braces? = none → child.kind.isClause = false) :
    Landing p.baseSource p.base p.baseChildren child.kind.isClause offset := by
  have hlane {offset : Nat} (start : laneStart p.baseSource p.base child.kind.isClause = some offset) :
      Landing p.baseSource p.base p.baseChildren child.kind.isClause offset := by
    obtain ⟨hsome, rfl⟩ := endAt_of_laneStart start
    obtain ⟨b, hb⟩ := Option.isSome_iff_exists.mp hsome
    exact .opening b hb
  have hfront (start : laneStart p.baseSource p.base child.kind.isClause = none) :
      Landing p.baseSource p.base p.baseChildren child.kind.isClause (frontOf p child) := by
    have hbare : p.base.braces? = none := Option.map_eq_none_iff.mp start
    rw [frontOf]
    split
    · rename_i first hfirst
      have hmem := List.mem_of_find?_eq_some hfirst
      rw [span_of_nonempty (hbase.nonempty first hmem).1]
      exact .front first hmem hbare
    · rename_i hnone
      refine .alone (List.eq_nil_iff_forall_not_mem.mpr fun n hn => ?_) hbare
      have := List.find?_eq_none.mp hnone n hn
      rw [Node.sharesLane, hbase.plain hbare n hn, hplain hbare] at this
      exact this rfl
  cases h with
  | behind anchor previous text found =>
    obtain ⟨n, hn, hget⟩ := List.exists_of_findSome?_eq_some found
    obtain ⟨hmem, hshares⟩ := List.mem_filter.mp hn
    obtain ⟨hanchor, hsig⟩ := hkeyed.get?_eq_some.mp hget
    have hkind := (hbase.labels anchor hanchor).kind_eq (hlabels n (List.mem_reverse.mp hmem)) hsig
    rw [span_of_nonempty (hbase.nonempty anchor hanchor).1]
    exact .behind anchor hanchor (by rw [hkind, beq_iff_eq.mp hshares])
  | opening offset gap text none start => exact hlane start
  | bare offset text none start => exact hlane start
  | before next text none start => exact hfront start
  | last text none start => exact hfront start

/-- A place for a child in a container: for a clause behind the closing sign and in the node, for any other
child between the signs. -/
def Node.Admits (l : Language) (s : Source) (a : Node) (clause : Bool) (offset : Nat) : Prop :=
  ∃ b ∈ a.braces?, ∃ opening ∈ s.tokens[b.opening]?, ∃ closing ∈ s.tokens[b.closing]?,
    opening.isPunct l.openingSign = true ∧ closing.isPunct l.closingSign = true ∧
      if clause then closing.stop ≤ offset ∧ offset ≤ (a.span s).2
      else opening.stop ≤ offset ∧ offset ≤ closing.start

namespace Landing

/-- Something is put next to a token, unless there is nothing to put it next to. -/
theorem edge (h : Landing s a m clause offset) (hnests : a.Nests l s m) :
    s.Edge offset ∨ m.nodes = [] ∧ a.braces? = none ∧ offset = Text.byteLength s.text := by
  cases h with
  | behind n hn =>
    obtain ⟨hne, hstop⟩ := hnests.nonempty n hn
    obtain ⟨k, hk⟩ : ∃ k, n.tokens.stop = k + 1 := ⟨n.tokens.stop - 1, by omega⟩
    rw [hk] at hstop ⊢
    exact .inl (Source.edge_endAt hstop)
  | opening b hb =>
    obtain ⟨_, hopening, -⟩ := hnests.opening b hb
    obtain ⟨_, hclosing, -⟩ := hnests.closing b hb
    rw [Node.lane_of_braces hb]
    cases clause
    · exact .inl (Source.edge_endAt (List.getElem?_eq_some_iff.mp hopening).1)
    · exact .inl (Source.edge_endAt (List.getElem?_eq_some_iff.mp hclosing).1)
  | front n hn =>
    obtain ⟨hne, hstop⟩ := hnests.nonempty n hn
    exact .inl (Source.edge_startAt (Nat.lt_of_lt_of_le hne hstop))
  | alone nothing bare => exact .inr ⟨nothing, bare, rfl⟩

/-- In a container with braces it is put into the lane. -/
theorem between {b : Braces} (h : Landing s a m clause offset) (hnests : a.Nests l s m) (hb : a.braces? = some b) :
    ∃ k, (a.lane clause).first ≤ k ∧ k ≤ (a.lane clause).stop ∧ offset = s.endAt k := by
  cases h with
  | behind n hn shares =>
    obtain ⟨hfirst, hstop⟩ := hnests.lane n hn
    rw [shares] at hfirst hstop
    exact ⟨_, Nat.le_trans hfirst (Nat.le_of_lt (hnests.nonempty n hn).1), hstop, rfl⟩
  | opening b' hb' =>
    refine ⟨_, Nat.le_refl _, ?_, rfl⟩
    have hframe := hnests.frame b hb
    rw [Node.lane_of_braces hb]
    cases clause
    · exact hframe.2.1
    · exact hframe.2.2
  | front n hn bare =>
    rw [hb] at bare
    cases bare
  | alone nothing bare =>
    rw [hb] at bare
    cases bare

/-- A clause is put behind the body and into the node, anything else into the body. -/
theorem admitted {b : Braces} (h : Landing s a m clause offset) (hs : s.LaidOut) (hnests : a.Nests l s m)
    (hb : a.braces? = some b) : a.Admits l s clause offset := by
  obtain ⟨opening, hopening, hsign⟩ := hnests.opening b hb
  obtain ⟨closing, hclosing, hsign'⟩ := hnests.closing b hb
  obtain ⟨hfirst, hlt, hstop⟩ := hnests.frame b hb
  obtain ⟨k, hk, hk', rfl⟩ := h.between hnests hb
  refine ⟨b, hb, opening, hopening, closing, hclosing, hsign, hsign', ?_⟩
  rw [Node.lane_of_braces hb] at hk hk'
  cases clause
  · rw [if_neg Bool.false_ne_true, ← Source.endAt_succ_of_getElem hopening,
      ← Source.startAt_of_getElem hclosing]
    exact ⟨hs.endAt_mono hk, hs.endAt_le_startAt_of_le hk'⟩
  · rw [if_pos rfl, ← Source.endAt_succ_of_getElem hclosing,
      span_of_nonempty (Nat.lt_of_le_of_lt hfirst (Nat.lt_trans hlt hstop))]
    exact ⟨hs.endAt_mono hk, hs.endAt_mono hk'⟩

section Parsed

variable {t : Tree} {x : Node} {path : List String}

/-- In a tree with any construct at all something is put next to a token. -/
theorem edge_of_construct (h : Landing t.source x m clause offset) (ht : l.parse text = .ok t)
    (hx : t.find? path = some x) (hm : x.children? = some m) (hsome : ∃ sig, (t.find? [sig]).isSome) :
    t.source.Edge offset := by
  refine (h.edge (Language.housed_of_parse ht hx hm).toNests).resolve_right ?_
  rintro ⟨hnil, hbare, -⟩
  obtain rfl := (Language.braces_eq_none_iff ht hx hm).mp hbare
  obtain ⟨sig, hsome⟩ := hsome
  obtain ⟨n, hn⟩ := Option.isSome_iff_exists.mp hsome
  obtain ⟨i, -, hi⟩ := Option.bind_eq_some_iff.mp ((Tree.find?_concat hx hm sig).symm.trans hn)
  rw [hnil] at hi
  cases hi

/-- In a tree without constructs there is only the end. -/
theorem eq_end_of_empty (h : Landing t.source x m clause offset) (ht : l.parse text = .ok t)
    (hx : t.find? path = some x) (hm : x.children? = some m) (hnone : ∀ sig, t.find? [sig] = none) :
    offset = Text.byteLength t.text := by
  cases path with
  | cons sig rest =>
    rw [← List.singleton_append, Tree.find?, Node.find?_append,
      show t.root.find? [sig] = none from hnone sig] at hx
    cases hx
  | nil =>
    have hempty (n : Node) (hn : n ∈ m.nodes) : False := by
      have hget := (Language.housed_of_parse ht hx hm).found n hn
      rw [← Tree.find?_concat hx hm] at hget
      cases hget.symm.trans (hnone n.signature)
    cases h with
    | behind n hn => exact (hempty n hn).elim
    | opening b hb =>
      rw [(Language.braces_eq_none_iff ht hx hm).mpr rfl] at hb
      cases hb
    | front n hn => exact (hempty n hn).elim
    | alone => rfl

end Parsed

end Landing

end Landing

section Diff

variable {l : Language} {text text' : List Char} {base mod : Tree} {names : SourceNames} {c : Changes}

/-- The addition of a construct of the mod: what it carries and where it goes. -/
structure Addition.Carries (l : Language) (base mod : Tree) (a : Addition) (x n : Node) : Prop where
  container : base.find? a.parent = some x
  construct : mod.find? (a.parent ++ [a.signature]) = some n
  text : ∃ lo hi cut, mod.CutAround l (a.parent ++ [a.signature]) n lo hi cut ∧
    (a.text = cut ∨ a.text = cut ++ ['\n'])
  /-- Where the base has any construct at all. -/
  edge : (∃ sig, (base.find? [sig]).isSome) → base.source.Edge a.offset
  alone : (∀ sig, base.find? [sig] = none) → a.offset = Text.byteLength base.text
  place : a.parent ≠ [] → x.Admits l base.source n.kind.isClause a.offset

/-- In the text of a tree the construct of one addition ends before that of the other starts. -/
def Addition.Precedes (t : Tree) (a a' : Addition) : Prop :=
  ∀ n n', t.find? (a.parent ++ [a.signature]) = some n → t.find? (a'.parent ++ [a'.signature]) = some n' →
    (n.span t.source).2 ≤ (n'.span t.source).1

section Container

variable {path : List String} {x y : Node} {m m' : ChildMap Node} {z : List Node × Node × List Node}
  {a : Addition} {as : List Addition} (hbase : l.parse text = .ok base) (hmod : l.parse text' = .ok mod)
  (hnew : ∀ cs, l.constructs mod.source = .ok cs → redefinesAmong .empty cs = false)
  (hx : base.find? path = some x) (hy : mod.find? path = some y) (hm : x.children? = some m)
  (hm' : y.children? = some m')

include hbase hmod hnew hx hy hm hm'

private theorem carries_of_additionOf (hz : z ∈ splits [] m'.nodes)
    (ha : AdditionOf ⟨base.source, mod.source, x, y, m⟩ path z a) : a.Carries l base mod x z.2.1 := by
  have hb := Language.wellFormed_of_parse hbase
  have ht := Language.wellFormed_of_parse hmod
  have hidx := (hb.keyed.find hx).indexed hm
  have hidx' := (ht.keyed.find hy).indexed hm'
  have hbare := Language.braces_eq_none_iff hbase hx hm
  have hbraces := hbare.trans (Language.braces_eq_none_iff hmod hy hm').symm
  have hhoused := Language.housed_of_parse hbase hx hm
  obtain ⟨pre, hpre, hsplit⟩ := mem_splits.mp hz
  rw [List.nil_append] at hpre
  have hrow : y.InRowAt l mod.source m' z.1 z.2.1 z.2.2 :=
    ⟨Language.inRow_of_parse hmod hy hm' hnew, by rw [hsplit, hpre]⟩
  have hplaced := placement_cases ha.placed
  have hland := hplaced.landing hhoused hidx (fun n hn => hrow.labels n (hrow.mem_of_before hn))
    fun hnone => hrow.plain (hbraces.mp hnone) _ hrow.child_mem
  obtain ⟨j, j', lo, hi, cut, hst, hlo, hhi, hcut, htext⟩ := hplaced.isStretch ht.laidOut hrow hbraces
  have hconstruct : mod.find? (path ++ [z.2.1.signature]) = some z.2.1 := by
    rw [Tree.find?_concat hy hm', hidx'.get?_eq_some]
    exact ⟨hrow.child_mem, rfl⟩
  obtain ⟨sig, parent, offset, added⟩ := a
  obtain rfl : sig = z.2.1.signature := ha.signature
  obtain rfl : parent = path := ha.parent
  refine ⟨hx, hconstruct, ⟨lo, hi, cut, hst.cutAround ht hy hm' hrow hlo hhi hcut, htext⟩,
    hland.edge_of_construct hbase hx hm, hland.eq_end_of_empty hbase hx hm, fun hinside => ?_⟩
  obtain ⟨b, hb'⟩ := Option.ne_none_iff_exists'.mp fun hnone => hinside (hbare.mp hnone)
  exact hland.admitted hb.laidOut hhoused.toNests hb'

/-- The additions of one container stand in the order of its children. -/
private theorem precedes_of_additionsOf {q : List Node × Node × List Node → Bool}
    (has : List.Forall₂ (AdditionOf ⟨base.source, mod.source, x, y, m⟩ path) ((splits [] m'.nodes).filter q) as) :
    as.Pairwise (Addition.Precedes mod) := by
  have ht := Language.wellFormed_of_parse hmod
  have hrow := Language.inRow_of_parse hmod hy hm' hnew
  have hcarries := forall₂_imp_of_mem has fun z hz a ha =>
    carries_of_additionOf hbase hmod hnew hx hy hm hm' (List.mem_filter.mp hz).1 ha
  have hspans : m'.nodes.Pairwise fun n n' => (n.span mod.source).2 ≤ (n'.span mod.source).1 :=
    hrow.row.imp_of_mem fun hn hn' hle => by
      rw [span_of_nonempty (hrow.nonempty _ hn).1, span_of_nonempty (hrow.nonempty _ hn').1]
      exact ht.laidOut.endAt_le_startAt_of_le hle
  rw [← map_splits [] m'.nodes, List.pairwise_map] at hspans
  have hsorted := pairwise_flatMap_of_forall₂ (f := fun a => [a]) (T := Addition.Precedes mod)
    (P := fun z a => mod.find? (a.parent ++ [a.signature]) = some z.2.1) hcarries (hspans.filter _)
    (fun z a hz a' ha' => by rw [List.mem_singleton.mp ha', hz.construct])
    (fun z a _ => List.pairwise_singleton _ _) fun z z' a a' hle ha ha' n n' hn hn' => by
      cases hn.symm.trans ha
      cases hn'.symm.trans ha'
      exact hle
  simpa using hsorted

end Container

/-- The additions at and below a path: each carries its construct, and those of one container are in order. -/
private structure AdditionsBelow (l : Language) (base mod : Tree) (path : List String) (as : List Addition) :
    Prop where
  below : ∀ a ∈ as, path <+: a.parent
  carries : ∀ a ∈ as, ∃ x n, a.Carries l base mod x n
  sorted : as.Pairwise fun a a' => a.parent = a'.parent → a.Precedes mod a'

/-- Children of different signatures have no container of additions in common. -/
private theorem additionsBelow_of_parts {path : List String} {ns : List Node} {parts : List Changes}
    (hns : ns.Pairwise fun n n' => n.signature ≠ n'.signature)
    (h : List.Forall₂ (fun n part => AdditionsBelow l base mod (path ++ [n.signature]) part.additions) ns parts) :
    AdditionsBelow l base mod path (parts.flatMap Changes.additions) ∧
      ∀ a ∈ parts.flatMap Changes.additions, path ≠ a.parent := by
  have hpart : ∀ a ∈ parts.flatMap Changes.additions, ∃ n : Node, path ++ [n.signature] <+: a.parent ∧
      ∃ x n, a.Carries l base mod x n := by
    intro a ha
    obtain ⟨part, hpart, ha⟩ := List.mem_flatMap.mp ha
    obtain ⟨n, -, hn⟩ := exists_of_forall₂_right h hpart
    exact ⟨n, hn.below a ha, hn.carries a ha⟩
  refine ⟨⟨fun a ha => ?_, fun a ha => ?_, ?_⟩, fun a ha heq => ?_⟩
  · obtain ⟨n, hn, -⟩ := hpart a ha
    exact (List.prefix_append _ _).trans hn
  · obtain ⟨-, -, hcarries⟩ := hpart a ha
    exact hcarries
  · refine pairwise_flatMap_of_forall₂ (P := fun n a => path ++ [n.signature] <+: a.parent) h hns
      (fun n part hn a ha => hn.below a ha) (fun n part hn => hn.sorted) fun n n' a a' hne hn hn' heq => ?_
    rw [← heq] at hn'
    have := List.IsPrefix.eq_of_length (List.prefix_of_prefix_length_le hn hn' (by simp)) (by simp)
    exact absurd (by simpa using this) hne
  · obtain ⟨n, hn, -⟩ := hpart a ha
    rw [← heq] at hn
    exact absurd hn.length_le (by simp)

private theorem additionsBelow_of_diff (hbase : l.parse text = .ok base) (hmod : l.parse text' = .ok mod)
    (hnew : ∀ cs, l.constructs mod.source = .ok cs → redefinesAmong .empty cs = false)
    (h : diff names base mod = some c) : AdditionsBelow l base mod [] c.additions := by
  refine diff_induction (Q := fun path _ _ c => AdditionsBelow l base mod path c.additions) ?_
    (Language.keyed_of_parse hbase) (Language.keyed_of_parse hmod) (Language.isContainer_of_parse hbase)
    (Language.isContainer_of_parse hmod) h
  intro path h h' b b' ns ns' index index' parts as hx hy hopen hidx hidx' hparts has
  have hinside : List.Forall₂ (fun n part =>
      AdditionsBelow l base mod (path ++ [n.signature]) part.additions) ns parts := by
    refine forall₂_imp_of_mem hparts fun n hn part hpart => ?_
    cases hpart with
    | removed | same | modified => exact ⟨List.forall_mem_nil _, List.forall_mem_nil _, .nil⟩
    | inside twin part found differ known => exact known
  obtain ⟨⟨hbelow, hcarries, hsorted⟩, hdeeper⟩ :=
    additionsBelow_of_parts (List.pairwise_map.mp hidx.nodup) hinside
  have hown : ∀ a ∈ as, a.parent = path ∧ ∃ x n, a.Carries l base mod x n := by
    intro a ha
    obtain ⟨z, hz, hza⟩ := exists_of_forall₂_right has ha
    exact ⟨hza.parent, _, _,
      carries_of_additionOf hbase hmod hnew hx hy rfl rfl (List.mem_filter.mp hz).1 hza⟩
  refine ⟨List.forall_mem_append.mpr ⟨hbelow, fun a ha => (hown a ha).1 ▸ List.prefix_rfl⟩,
    List.forall_mem_append.mpr ⟨hcarries, fun a ha => (hown a ha).2⟩,
    List.pairwise_append.mpr ⟨hsorted, ?_, fun a ha a' ha' heq => ?_⟩⟩
  · refine List.Pairwise.imp ?_ (precedes_of_additionsOf hbase hmod hnew hx hy rfl rfl has)
    exact fun hle _ => hle
  · exact absurd ((hown a' ha').1.symm.trans heq.symm) (hdeeper a ha)

/-- A diff against a mod in which nothing takes the place of another is computed to the end, without a part
of the text that ends before it starts. Each addition carries the whole of its construct, and besides that no
token but stray `;`. It goes to where a token of the base starts or ends, or to the end of a base without
constructs, and in a container to where a construct of its kind may stand. Additions to one container are
listed in the order of the mod. In documents nothing ever takes the place of another. -/
theorem diff_carries_additions (names : SourceNames) (hbase : l.parse text = .ok base)
    (hmod : l.parse text' = .ok mod) (hnew : l = .script →
      ∀ cs, l.constructs mod.source = .ok cs → redefinesAmong .empty cs = false) :
    ∃ c, diff names base mod = some c ∧ (∀ a ∈ c.additions, ∃ x n, a.Carries l base mod x n) ∧
      c.additions.Pairwise fun a a' => a.parent = a'.parent → a.Precedes mod a' := by
  have hnew : ∀ cs, l.constructs mod.source = .ok cs → redefinesAmong .empty cs = false := by
    cases l with
    | script => exact hnew rfl
    | markup =>
      obtain ⟨fs, hwritten⟩ := Language.written_of_parse hmod (by simp)
      exact hwritten.not_redefines
  obtain ⟨c, hc⟩ := diff_completes names base hmod hnew
  have hadded := additionsBelow_of_diff hbase hmod hnew hc
  exact ⟨c, hc, hadded.carries, hadded.sorted⟩

end Diff

set_option maxRecDepth 100000 in
/-- A call behind a stray `;`, and an `else` with a call into the `if` in front of it. -/
theorem diff_carries_calls_and_an_else : ∃ base mod c,
    Language.script.parse "sub run() \x7b f(1); if (a) \x7b \x7d \x7d".toList = .ok base ∧
    Language.script.parse
      "sub run() \x7b f(1); ; g(); if (a) \x7b h(); \x7d else \x7b k(); \x7d \x7d".toList = .ok mod ∧
    (∀ cs, Language.script.constructs mod.source = .ok cs → redefinesAmong .empty cs = false) ∧
    diff ⟨"run.ndf", "game", "mod"⟩ base mod = some c ∧
    c.additions = [⟨"funCall:h", ["sub:run", "if"], 26, " h();".toList⟩,
      ⟨"else", ["sub:run", "if"], 28, " else \x7b k(); \x7d".toList⟩,
      ⟨"funCall:g", ["sub:run"], 17, " ; g();".toList⟩] ∧
    (∀ a ∈ c.additions, ∃ x n, a.Carries .script base mod x n) ∧
    c.additions.Pairwise fun a a' => a.parent = a'.parent → a.Precedes mod a' := by
  obtain ⟨base, mod, c, hbase, hmod, hc, hall⟩ := exists_diff
    (P := fun _ mod c => (Language.script.constructs mod.source).toOption.map (redefinesAmong .empty) ==
        some false &&
      c.additions == [⟨"funCall:h", ["sub:run", "if"], 26, " h();".toList⟩,
        ⟨"else", ["sub:run", "if"], 28, " else \x7b k(); \x7d".toList⟩,
        ⟨"funCall:g", ["sub:run"], 17, " ; g();".toList⟩])
    .script ⟨"run.ndf", "game", "mod"⟩ "sub run() \x7b f(1); if (a) \x7b \x7d \x7d".toList
    "sub run() \x7b f(1); ; g(); if (a) \x7b h(); \x7d else \x7b k(); \x7d \x7d".toList
    (by decide +kernel)
  rw [Bool.and_eq_true, beq_iff_eq, beq_iff_eq] at hall
  obtain ⟨hfresh, hadditions⟩ := hall
  have hnew : ∀ cs, Language.script.constructs mod.source = .ok cs → redefinesAmong .empty cs = false := by
    intro cs hcs
    rw [hcs] at hfresh
    exact Option.some.inj hfresh
  obtain ⟨c', hc', hcarries, hsorted⟩ :=
    diff_carries_additions ⟨"run.ndf", "game", "mod"⟩ hbase hmod fun _ => hnew
  cases hc.symm.trans hc'
  exact ⟨base, mod, c, hbase, hmod, hnew, hc, hadditions, hcarries, hsorted⟩

end ModWeave
