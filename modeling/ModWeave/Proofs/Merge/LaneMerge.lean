import ModWeave.Proofs.Merge.Rows

/-! A lane of the base merged with the same lane of the mod: each child of the base has its fate, and each
child that only the mod has is grafted in. -/
namespace ModWeave

/-- Children of one lane of the base, from token `i` and byte `lo` on, what becomes of each, and the grafts
for the `rows` of the mod's lane that the base lacks. `all` are the rows of both lanes of the mod. -/
structure LaneMerge (w : Settlement) (path : List String) (m m' : ChildMap Node) (clause : Bool)
    (i lo : Nat) (fs fs' : List Form) (ns : List Node) (rows all : Rows) (part : Node → Changes)
    (result : Node → List Form) (gs : List Graft) : Prop where
  base : StandingAll w.language w.base.source i fs ns
  indexed : m.Indexed
  sublist : ns.Sublist m.nodes
  kind : ∀ f ∈ fs, f.isClause = clause
  mod : RowsOf w.language w.mod.source fs' (rows.map Prod.fst) rows
  indexed' : m'.Indexed
  listed : ∀ q ∈ rows, q.1 ∈ m'.nodes ∧ q ∈ all
  sound' : ∀ f ∈ fs', w.language.Sound f ∧ f.isClause = clause ∧ f.ordered = true
  stays : ∀ q ∈ rows, ∀ n, m.get? q.1.signature = some n → n ∈ ns
  fates : ∀ n ∈ ns, ∃ k f, f ∈ fs ∧ Standing w.language w.base.source k f n ∧
    w.Fate path m' (fun twin g => (twin, g) ∈ all) n f (part n) (result n)
  grafts : List.Forall₂ (LaneGraft w.language w.base.source m lo path fs')
    ((splits [] rows).filter fun z => !m.contains z.2.1.1.signature) gs

theorem graftsAt_append (gs hs : List Graft) (k : Nat) :
    graftsAt (gs ++ hs) k = graftsAt gs k ++ graftsAt hs k := by
  rw [graftsAt, List.filter_append, List.flatMap_append]
  rfl

theorem mem_graftsAt {gs : List Graft} {k : Nat} {f : Form} (h : f ∈ graftsAt gs k) :
    ∃ g ∈ gs, g.addition.offset = k ∧ f ∈ g.forms := by
  obtain ⟨g, hg, hf⟩ := List.mem_flatMap.mp h
  obtain ⟨hg, hk⟩ := List.mem_filter.mp hg
  exact ⟨g, hg, beq_iff_eq.mp hk, hf⟩

/-- Only the grafts of the places in question matter. -/
theorem Outcome.congr {fs woven : List Form} {ns : List Node} {s : Source} {gs hs : List Graft}
    {result : Node → List Form} (h : Outcome fs ns s gs result woven)
    (heq : ∀ n ∈ ns, graftsAt gs (n.span s).2 = graftsAt hs (n.span s).2) :
    Outcome fs ns s hs result woven := by
  refine ⟨?_, fun f hf => ?_⟩
  · rw [h.solids]
    exact List.flatMap_congr fun n hn => by rw [heq n hn]
  · rcases h.mem f hf with hf | ⟨n, hn, hf⟩
    · exact .inl hf
    · exact .inr ⟨n, hn, heq n hn ▸ hf⟩

theorem Outcome.mem_of_result {fs woven : List Form} {ns : List Node} {s : Source} {gs : List Graft}
    {result : Node → List Form} (h : Outcome fs ns s gs result woven) {n : Node} (hn : n ∈ ns) {f : Form}
    (hf : f ∈ result n) : f ∈ woven := by
  have hsolids : f ∈ ModWeave.solids woven := by
    rw [h.solids]
    exact List.mem_flatMap.mpr ⟨n, hn, List.mem_append_left _ hf⟩
  exact List.mem_of_mem_filter hsolids

/-- Children one behind the other end one behind the other. -/
theorem StandingAll.ends {l : Language} {s : Source} {i : Nat} {fs : List Form} {ns : List Node}
    (h : StandingAll l s i fs ns) (hs : s.Cuts l) :
    ns.Pairwise fun n n' => (n.span s).2 ≤ (n'.span s).1 ∧ (n.span s).2 < (n'.span s).2 := by
  refine h.induction (motive := fun _ _ ns => ns.Pairwise _) ?_ ?_ ?_
  · exact fun _ _ => .nil
  · exact fun _ _ _ _ _ _ ih => ih
  · intro i f n fs ns hn hns ih
    refine .cons (fun n' hn' => ?_) ih
    have := hns.bytes hs hn'
    rw [hn.span]
    exact ⟨this.1, Nat.lt_of_le_of_lt this.1 this.2.1⟩

/-- Children that end at one place are one. -/
theorem StandingAll.eq_of_ends {l : Language} {s : Source} {i : Nat} {fs : List Form} {ns : List Node}
    (h : StandingAll l s i fs ns) (hs : s.Cuts l) {n n' : Node} (hn : n ∈ ns) (hn' : n' ∈ ns)
    (heq : (n.span s).2 = (n'.span s).2) : n = n' := by
  have hnodup : (ns.map fun n => (n.span s).2).Nodup :=
    List.pairwise_map.mpr ((h.ends hs).imp fun h => Nat.ne_of_lt h.2)
  exact List.inj_on_of_nodup_map hnodup hn hn' heq

namespace LaneMerge

variable {w : Settlement} {path : List String} {m m' : ChildMap Node} {clause : Bool} {i lo : Nat}
  {fs fs' woven : List Form} {ns : List Node} {rows all : Rows} {part : Node → Changes}
  {result : Node → List Form} {gs hs : List Graft} {g : Graft} {n : Node}

/-- A graft stands at the start of the lane, or behind a child that stands before its own in the mod. -/
theorem place (h : LaneMerge w path m m' clause i lo fs fs' ns rows all part result gs) (hg : g ∈ gs) :
    ∃ z ∈ splits [] rows, LaneGraft w.language w.base.source m lo path fs' z g ∧
      (g.addition.offset = lo ∨ ∃ n ∈ ns, g.addition.offset = (n.span w.base.source).2 ∧
        ∃ q ∈ z.1, m'.get? n.signature = some q.1) := by
  obtain ⟨z, hz, hgraft⟩ := exists_of_forall₂_right h.grafts hg
  have hz := List.mem_of_mem_filter hz
  refine ⟨z, hz, hgraft, ?_⟩
  cases hlast : lastKept m (z.1.map Prod.fst) with
  | none => exact .inl (by rw [hgraft.offset, hlast]; rfl)
  | some n =>
    obtain ⟨b, hb, hget⟩ := List.exists_of_findSome?_eq_some hlast
    obtain ⟨q, hq, rfl⟩ := List.mem_map.mp (List.mem_reverse.mp hb)
    obtain ⟨pre, hpre, hall⟩ := mem_splits.mp hz
    have hmem : q ∈ rows := by
      rw [hall, List.mem_append]
      exact .inl (by rwa [hpre, List.nil_append] at hq)
    have hsig := (h.indexed.get?_eq_some.mp hget).2
    refine .inr ⟨n, h.stays q hmem n hget, by rw [hgraft.offset, hlast]; rfl, q, hq, ?_⟩
    exact h.indexed'.get?_eq_some.mpr ⟨(h.listed q hmem).1, hsig.symm⟩

/-- Grafts stay in the region of their lane. -/
theorem range (h : LaneMerge w path m m' clause i (w.base.source.endAt i) fs fs' ns rows all part result gs)
    (hcuts : w.base.source.Cuts w.language) (hg : g ∈ gs) :
    w.base.source.endAt i ≤ g.addition.offset ∧
      g.addition.offset ≤ w.base.source.endAt (i + (lexemesAll fs).length) := by
  have hmono := hcuts.laidOut.endAt_mono (Nat.le_add_right i (lexemesAll fs).length)
  obtain ⟨-, -, -, heq | ⟨n, hn, heq, -⟩⟩ := h.place hg
  · omega
  · have := h.base.bytes hcuts hn
    omega

theorem reads (h : LaneMerge w path m m' clause i lo fs fs' ns rows all part result gs) :
    Graft.AllRead w.language gs := by
  intro g hg
  obtain ⟨z, -, hgraft, -⟩ := h.place hg
  exact hgraft.reads

/-- The lane is woven, whatever is grafted in elsewhere. -/
theorem weave (h : LaneMerge w path m m' clause i lo fs fs' ns rows all part result gs)
    (hcuts : w.base.source.Cuts w.language) (hcut : w.base.source.Cut w.language lo i)
    (hlo : lo ≤ w.base.source.startAt i) (hnil : fs = [] → lo = w.base.source.endAt i)
    (hread : Graft.AllRead w.language hs) (hsub : ∀ g ∈ hs, g ∈ gs ∨ g.addition.offset ≤ lo ∨
      w.base.source.endAt (i + (lexemesAll fs).length) < g.addition.offset)
    (hlocal : ∀ n ∈ ns, graftsAt hs (n.span w.base.source).2 = graftsAt gs (n.span w.base.source).2) :
    ∃ woven, Woven w.language w.base.source lo (w.base.source.endAt (i + (lexemesAll fs).length)) hs
      (ns.flatMap fun n => (part n).chosen w.choice) (ns.flatMap fun n => (part n).inserted)
      (lexemesAll woven) ∧ Outcome fs ns w.base.source gs result woven := by
  have hturned (n : Node) (hn : n ∈ ns) : Turned w.language w.base.source n
      ((part n).chosen w.choice) (part n).inserted (result n) := by
    obtain ⟨k, f, -, -, hfate⟩ := h.fates n hn
    exact hfate.turned
  obtain ⟨woven, hwoven, houtcome⟩ := h.base.weave hcuts hcut hlo hnil hturned hread fun g hg => by
    rcases hsub g hg with hg | hle | hlt
    · obtain ⟨z, -, -, hplace⟩ := h.place hg
      rcases hplace with heq | ⟨n, hn, heq, -⟩
      · exact .inl (Nat.le_of_eq heq)
      · exact .inr (.inl ⟨n, hn, heq⟩)
    · exact .inl hle
    · exact .inr (.inr hlt)
  exact ⟨woven, hwoven, houtcome.congr hlocal⟩

theorem settles (h : LaneMerge w path m m' clause i lo fs fs' ns rows all part result gs) (hn : n ∈ ns) :
    (part n).Settles w.choice := by
  obtain ⟨k, f, -, -, hfate⟩ := h.fates n hn
  exact hfate.settles

/-- A lane stays one of sound forms. -/
theorem sound (h : LaneMerge w path m m' clause i lo fs fs' ns rows all part result gs)
    (ho : Outcome fs ns w.base.source gs result woven) :
    ∀ f ∈ graftsAt gs lo ++ woven, w.language.Sound f ∧ f.isClause = clause := by
  have hgrafts {k : Nat} {f : Form} (hf : f ∈ graftsAt gs k) : w.language.Sound f ∧ f.isClause = clause := by
    obtain ⟨g, hg, -, hf⟩ := mem_graftsAt hf
    obtain ⟨z, -, hgraft, -⟩ := h.place hg
    obtain ⟨hsound, hclause, -⟩ := h.sound' f (hgraft.mem f hf)
    exact ⟨hsound, hclause⟩
  intro f hf
  rcases List.mem_append.mp hf with hf | hf
  · exact hgrafts hf
  · rcases ho.mem f hf with ⟨hf, -⟩ | ⟨n, hn, hf | hf⟩
    · exact ⟨h.base.sound f hf, h.kind f hf⟩
    · obtain ⟨k, f₀, hf₀, -, hfate⟩ := h.fates n hn
      obtain ⟨hsound, hclause, -⟩ := hfate.sound f hf
      exact ⟨hsound, hclause.trans (h.kind f₀ hf₀)⟩
    · exact hgrafts hf

/-- What is in a merged lane comes from either side. -/
theorem origin (h : LaneMerge w path m m' clause i lo fs fs' ns rows all part result gs)
    (ho : Outcome fs ns w.base.source gs result woven) {f : Form} (hf : f ∈ graftsAt gs lo ++ woven) :
    fs ≠ [] ∨ fs' ≠ [] := by
  have hgrafts {k : Nat} (hf : f ∈ graftsAt gs k) : fs' ≠ [] := by
    obtain ⟨g, hg, -, hf⟩ := mem_graftsAt hf
    obtain ⟨z, -, hgraft, -⟩ := h.place hg
    exact List.ne_nil_of_mem (hgraft.mem f hf)
  rcases List.mem_append.mp hf with hf | hf
  · exact .inr (hgrafts hf)
  · rcases ho.mem f hf with ⟨hf, -⟩ | ⟨n, hn, -⟩
    · exact .inl (List.ne_nil_of_mem hf)
    · obtain ⟨k, f₀, hf₀, -⟩ := h.fates n hn
      exact .inl (List.ne_nil_of_mem hf₀)

/-- A child that only the mod has is among what the lane becomes. -/
theorem mem_of_graft (h : LaneMerge w path m m' clause i lo fs fs' ns rows all part result gs)
    (ho : Outcome fs ns w.base.source gs result woven) (hg : g ∈ gs) {f : Form} (hf : f ∈ solids g.forms) :
    f ∈ graftsAt gs lo ++ woven := by
  have hmem : f ∈ solids (graftsAt gs g.addition.offset) := by
    obtain ⟨hf, hsolid⟩ := List.mem_filter.mp hf
    exact List.mem_filter.mpr ⟨List.mem_flatMap.mpr ⟨g, List.mem_filter.mpr ⟨hg, by simp⟩, hf⟩, hsolid⟩
  obtain ⟨-, -, -, heq | ⟨n, hn, heq, -⟩⟩ := h.place hg
  · exact List.mem_append_left _ (List.mem_of_mem_filter (heq ▸ hmem))
  · have hsolids : f ∈ solids woven := by
      rw [ho.solids]
      exact List.mem_flatMap.mpr ⟨n, hn, List.mem_append_right _ (heq ▸ hmem)⟩
    exact List.mem_append_right _ (List.mem_of_mem_filter hsolids)

/-- A lane of the mod that is not empty leaves something in the base's lane. -/
theorem filled (h : LaneMerge w path m m' clause i lo fs fs' ns rows all part result gs)
    (ho : Outcome fs ns w.base.source gs result woven) (hne : rows ≠ []) : graftsAt gs lo ++ woven ≠ [] := by
  obtain ⟨q, hq⟩ := List.exists_mem_of_ne_nil rows hne
  cases hget : m.get? q.1.signature with
  | some n =>
    -- a child of the base that the mod has does not go
    have hn := h.stays q hq n hget
    obtain ⟨k, f, -, -, hfate⟩ := h.fates n hn
    have htwin : m'.get? n.signature = some q.1 :=
      h.indexed'.get?_eq_some.mpr ⟨(h.listed q hq).1, (h.indexed.get?_eq_some.mp hget).2.symm⟩
    have hstays : result n ≠ [] := by
      rw [ne_eq, hfate.gone, htwin]
      simp
    obtain ⟨f, hf⟩ := List.exists_mem_of_ne_nil _ hstays
    exact List.ne_nil_of_mem (List.mem_append_right _ (ho.mem_of_result hn hf))
  | none =>
    have hlack : m.contains q.1.signature = false := by
      rw [← Bool.not_eq_true, ← h.indexed.get?_isSome, hget]
      simp
    rw [← map_splits [] rows] at hq
    obtain ⟨z, hz, rfl⟩ := List.mem_map.mp hq
    obtain ⟨g, hg, hgraft⟩ := exists_of_forall₂_left h.grafts (List.mem_filter.mpr ⟨hz, by simp [hlack]⟩)
    exact List.ne_nil_of_mem (h.mem_of_graft ho hg (f := z.2.1.2) (by simp [hgraft.solids]))

/-- With the mod's side taken everywhere a lane becomes the mod's lane. -/
theorem agrees (h : LaneMerge w path m m' clause i lo fs fs' ns rows all part result gs)
    (hcuts : w.base.source.Cuts w.language) (ho : Outcome fs ns w.base.source gs result woven)
    (hlo : ∀ n ∈ ns, lo < (n.span w.base.source).2)
    (htakes : ∀ n ∈ ns, (part n).TakesMod w.choice)
    (horder : (ns.map Node.signature).filter m'.contains =
      (rows.map (·.1.signature)).filter m.contains)
    (hinside : ∀ n ∈ ns, ∀ twin, m'.get? n.signature = some twin →
      DifferInside w.base.source w.mod.source n twin → inSameOrder w.base.source w.mod.source n twin = true) :
    List.Forall₂ Agrees (solids (graftsAt gs lo ++ woven)) (solids fs') := by
  rw [solids_append, ho.solids, ← h.mod.forms]
  exact Adopted.agrees {
    indexed := h.indexed
    indexed' := h.indexed'
    nodes := fun n hn => h.sublist.subset hn
    listed := fun q hq => (h.listed q hq).1
    stays := h.stays
    grafts := h.grafts.imp fun z g hz => ⟨hz.offset, hz.solids⟩
    nodup := h.indexed.nodup.sublist (h.sublist.map Node.signature)
    ends := fun n hn n' hn' => h.base.eq_of_ends hcuts hn hn'
    front := fun n hn => Nat.ne_of_gt (hlo n hn)
    order := horder
    gone := fun n hn hnone => by
      obtain ⟨k, f, -, -, hfate⟩ := h.fates n hn
      exact hfate.dropped (htakes n hn) hnone
    becomes := fun n hn q hq htwin => by
      obtain ⟨k, f, -, -, hfate⟩ := h.fates n hn
      exact hfate.agrees (htakes n hn) q.1 q.2 htwin (h.listed q hq).2 (hinside n hn q.1 htwin)
    self := fun q hq => by
      obtain ⟨k, hstanding⟩ := h.mod.standing q hq
      have hmem : q.2 ∈ solids fs' := h.mod.forms ▸ List.mem_map_of_mem hq
      exact hstanding.agrees_self (h.sound' q.2 (List.mem_of_mem_filter hmem)).2.2 }

/-- Where the mod's lane is empty nothing is grafted in. -/
theorem no_grafts (h : LaneMerge w path m m' clause i lo fs [] ns rows all part result gs) : gs = [] := by
  refine List.eq_nil_iff_forall_not_mem.mpr fun g hg => ?_
  obtain ⟨z, hz, -, -⟩ := h.place hg
  have hmem : z.2.1.2 ∈ rows.map Prod.snd :=
    List.mem_map_of_mem (map_splits [] rows ▸ List.mem_map_of_mem hz)
  rw [h.mod.forms] at hmem
  cases hmem

/-- A statement that is added is no `else`. -/
theorem clear {body clauses : List Form} {ns' cs' : List Node} {j k : Nat}
    (h : LaneMerge w path m m' clause i lo fs fs' ns rows all part result gs) (hl : w.language = .script)
    (hlanes : Lanes w.language w.mod.source j k body clauses m' ns' cs') (hlisted : rows.map Prod.fst = ns')
    (hg : g ∈ gs) : w.Clear g.addition := by
  intro hsig
  obtain ⟨z, hz, hgraft, -⟩ := h.place hg
  have hmem : z.2.1.1 ∈ ns' :=
    hlisted ▸ List.mem_map_of_mem (map_splits [] rows ▸ List.mem_map_of_mem hz)
  have hscript : Lanes .script w.mod.source j k body clauses m' ns' cs' := hl ▸ hlanes
  have htold := hscript.told (hscript.nodes ▸ List.mem_append_left _ hmem)
  have hplain := hscript.statement hmem
  rw [htold.otherwise.mpr (hgraft.signature ▸ hsig)] at hplain
  cases hplain

/-- What stands in front of a lane's first child need not be looked at. -/
theorem skip {pre : List Form} (h : LaneMerge w path m m' clause i lo (pre ++ fs) fs' ns rows all part result gs)
    (hpre : solids pre = []) (hstanding : StandingAll w.language w.base.source (i + (lexemesAll pre).length) fs ns) :
    LaneMerge w path m m' clause (i + (lexemesAll pre).length) lo fs fs' ns rows all part result gs :=
  { h with
    base := hstanding
    kind := fun f hf => h.kind f (List.mem_append_right _ hf)
    fates := fun n hn => by
      obtain ⟨k, f, hf, hstand, hfate⟩ := h.fates n hn
      refine ⟨k, f, (List.mem_append.mp hf).resolve_left fun hf => ?_, hstand, hfate⟩
      have hmem : f ∈ solids pre := List.mem_filter.mpr ⟨hf, hstand.isSolid⟩
      rw [hpre] at hmem
      cases hmem }

end LaneMerge

end ModWeave
