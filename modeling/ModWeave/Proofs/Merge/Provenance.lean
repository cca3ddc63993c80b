import ModWeave.Proofs.Merge.LaneMerge

/-! Where the forms of a merged lane come from. Each is known there by the signature that it has on the side
it comes from, and these tell the forms apart. -/
namespace ModWeave

/-- What is grafted in, under its signature in the mod. -/
def Graft.rows (g : Graft) : List (String × Form) := (solids g.forms).map (g.addition.signature, ·)

def rowsAt (gs : List Graft) (k : Nat) : List (String × Form) :=
  (gs.filter (·.addition.offset == k)).flatMap Graft.rows

/-- The forms of a merged lane from byte `lo` on, each under the signature that it comes with. -/
def laneRows (s : Source) (lo : Nat) (ns : List Node) (result : Node → List Form) (gs : List Graft) :
    List (String × Form) :=
  rowsAt gs lo ++ ns.flatMap fun n => (result n).map (n.signature, ·) ++ rowsAt gs (n.span s).2

section Rows

variable {gs : List Graft} {g : Graft} {k : Nat} {p : String × Form}

theorem map_snd_rowsAt (gs : List Graft) (k : Nat) : (rowsAt gs k).map Prod.snd = solids (graftsAt gs k) := by
  rw [rowsAt, graftsAt, List.map_flatMap, solids, List.filter_flatMap]
  refine List.flatMap_congr fun g _ => ?_
  rw [Graft.rows, List.map_map]
  exact List.map_id _

theorem mem_rowsAt : p ∈ rowsAt gs k ↔
    ∃ g ∈ gs, g.addition.offset = k ∧ g.addition.signature = p.1 ∧ p.2 ∈ solids g.forms := by
  rw [rowsAt, List.mem_flatMap]
  refine exists_congr fun g => ?_
  rw [List.mem_filter, beq_iff_eq, and_assoc, Graft.rows, List.mem_map]
  refine and_congr_right fun _ => and_congr_right fun _ => ⟨?_, ?_⟩
  · rintro ⟨f, hf, rfl⟩
    exact ⟨rfl, hf⟩
  · rintro ⟨hsig, hf⟩
    exact ⟨p.2, hf, by rw [hsig]⟩

end Rows

namespace LaneMerge

variable {w : Settlement} {path : List String} {m m' : ChildMap Node} {clause : Bool} {i lo : Nat}
  {fs fs' woven : List Form} {ns : List Node} {rows all : Rows} {part : Node → Changes}
  {result : Node → List Form} {gs : List Graft} {g : Graft} {n : Node} {p : String × Form}

theorem map_snd_laneRows (ho : Outcome fs ns w.base.source gs result woven) :
    (laneRows w.base.source lo ns result gs).map Prod.snd = solids (graftsAt gs lo ++ woven) := by
  rw [laneRows, List.map_append, map_snd_rowsAt, solids_append, ho.solids, List.map_flatMap]
  congr 1
  refine List.flatMap_congr fun n _ => ?_
  rw [List.map_append, map_snd_rowsAt, List.map_map]
  exact congrArg (· ++ _) (List.map_id _)

variable (h : LaneMerge w path m m' clause i lo fs fs' ns rows all part result gs)

include h

/-- A graft is a child that only the mod has. -/
private theorem graft_row (hg : g ∈ gs) : ∃ q ∈ rows, g.addition.signature = q.1.signature ∧
    solids g.forms = [q.2] ∧ m.contains q.1.signature = false := by
  obtain ⟨z, hz, hgraft⟩ := exists_of_forall₂_right h.grafts hg
  obtain ⟨hz, hlack⟩ := List.mem_filter.mp hz
  exact ⟨z.2.1, map_splits [] rows ▸ List.mem_map_of_mem hz, hgraft.signature, hgraft.solids, by simpa using hlack⟩

/-- A row stands for what became of a child of the base, or for a child that only the mod has. -/
private theorem mem_laneRows (hp : p ∈ laneRows w.base.source lo ns result gs) :
    (∃ n ∈ ns, n.signature = p.1 ∧ p.2 ∈ result n) ∨ p ∈ rows.map fun q => (q.1.signature, q.2) := by
  have hgraft {k : Nat} (hp : p ∈ rowsAt gs k) : p ∈ rows.map fun q => (q.1.signature, q.2) := by
    obtain ⟨g, hg, -, hsig, hf⟩ := mem_rowsAt.mp hp
    obtain ⟨q, hq, hkey, hforms, -⟩ := h.graft_row hg
    rw [hforms, List.mem_singleton] at hf
    exact List.mem_map.mpr ⟨q, hq, by rw [← hkey, hsig, ← hf]⟩
  rcases List.mem_append.mp hp with hp | hp
  · exact .inr (hgraft hp)
  · obtain ⟨n, hn, hp⟩ := List.mem_flatMap.mp hp
    rcases List.mem_append.mp hp with hp | hp
    · obtain ⟨f, hf, rfl⟩ := List.mem_map.mp hp
      exact .inl ⟨n, hn, rfl, hf⟩
    · exact .inr (hgraft hp)

/-- Every form of the lane comes from one side, or is what two children are merged to. -/
theorem comesFrom (hp : p ∈ laneRows w.base.source lo ns result gs) :
    ComesFrom w.language w.base.source w.mod.source m m' p.1 p.2 := by
  rcases h.mem_laneRows hp with ⟨n, hn, hsig, hf⟩ | hp
  · obtain ⟨k, f, -, -, hfate⟩ := h.fates n hn
    rw [← hsig]
    exact hfate.comes p.2 hf m (h.indexed.get?_eq_some.mpr ⟨h.sublist.subset hn, rfl⟩)
  · obtain ⟨q, hq, rfl⟩ := List.mem_map.mp hp
    obtain ⟨k, hstand⟩ := h.mod.standing q hq
    exact .taken q.1 (h.indexed'.get?_eq_some.mpr ⟨(h.listed q hq).1, rfl⟩) hstand

/-- A row is of the lane. -/
theorem clause_of_row (hp : p ∈ laneRows w.base.source lo ns result gs) :
    ∃ n, (n ∈ m.nodes ∨ n ∈ m'.nodes) ∧ n.signature = p.1 ∧ n.kind.isClause = clause := by
  rcases h.mem_laneRows hp with ⟨n, hn, hsig, -⟩ | hp
  · obtain ⟨k, f, hf, hstand, -⟩ := h.fates n hn
    exact ⟨n, .inl (h.sublist.subset hn), hsig, hstand.isClause.trans (h.kind f hf)⟩
  · obtain ⟨q, hq, rfl⟩ := List.mem_map.mp hp
    obtain ⟨k, hstand⟩ := h.mod.standing q hq
    have hmem : q.2 ∈ solids fs' := h.mod.forms ▸ List.mem_map_of_mem hq
    exact ⟨q.1, .inr (h.listed q hq).1, rfl,
      hstand.isClause.trans (h.sound' q.2 (List.mem_of_mem_filter hmem)).2.1⟩

/-- Every child of the mod's lane is in the lane. -/
theorem exists_row {q : Node × Form} (hq : q ∈ rows) :
    ∃ f, (q.1.signature, f) ∈ laneRows w.base.source lo ns result gs := by
  cases hget : m.get? q.1.signature with
  | some n =>
    -- a child of the base that the mod has does not go
    have hn := h.stays q hq n hget
    have hsig : n.signature = q.1.signature := (h.indexed.get?_eq_some.mp hget).2
    obtain ⟨k, f, -, -, hfate⟩ := h.fates n hn
    have htwin : m'.get? n.signature = some q.1 :=
      h.indexed'.get?_eq_some.mpr ⟨(h.listed q hq).1, hsig.symm⟩
    have hstays : result n ≠ [] := by
      rw [ne_eq, hfate.gone, htwin]
      simp
    obtain ⟨f, hf⟩ := List.exists_mem_of_ne_nil _ hstays
    refine ⟨f, List.mem_append_right _ (List.mem_flatMap.mpr ⟨n, hn, List.mem_append_left _ ?_⟩)⟩
    exact List.mem_map.mpr ⟨f, hf, by rw [hsig]⟩
  | none =>
    have hlack : m.contains q.1.signature = false := by
      rw [← Bool.not_eq_true, ← h.indexed.get?_isSome, hget]
      simp
    have hsplit := hq
    rw [← map_splits [] rows] at hsplit
    obtain ⟨z, hz, rfl⟩ := List.mem_map.mp hsplit
    obtain ⟨g, hg, hgraft⟩ := exists_of_forall₂_left h.grafts (List.mem_filter.mpr ⟨hz, by simp [hlack]⟩)
    have hrow : (z.2.1.1.signature, z.2.1.2) ∈ rowsAt gs g.addition.offset :=
      mem_rowsAt.mpr ⟨g, hg, rfl, hgraft.signature, by simp [hgraft.solids]⟩
    refine ⟨z.2.1.2, ?_⟩
    obtain ⟨-, -, -, heq | ⟨n, hn, heq, -⟩⟩ := h.place hg
    · exact List.mem_append_left _ (heq ▸ hrow)
    · exact List.mem_append_right _ (List.mem_flatMap.mpr ⟨n, hn, List.mem_append_right _ (heq ▸ hrow)⟩)

private theorem map_fst_rowsAt (k : Nat) :
    (rowsAt gs k).map Prod.fst = (gs.filter (·.addition.offset == k)).map (·.addition.signature) := by
  rw [rowsAt, List.map_flatMap, ← List.flatMap_singleton' (List.map _ _), List.flatMap_map]
  refine List.flatMap_congr fun g hg => ?_
  obtain ⟨q, -, -, hforms, -⟩ := h.graft_row (List.mem_of_mem_filter hg)
  simp [Graft.rows, hforms]

private theorem nodup_grafts (hrows : (rows.map (·.1.signature)).Nodup) :
    (gs.map (·.addition.signature)).Nodup := by
  have heq : gs.map (·.addition.signature) =
      ((splits [] rows).filter fun z => !m.contains z.2.1.1.signature).map (·.2.1.1.signature) := by
    have hall := h.grafts
    generalize (splits [] rows).filter (fun z => !m.contains z.2.1.1.signature) = zs at hall
    clear h
    induction hall with
    | nil => rfl
    | cons hz _ ih => rw [List.map_cons, List.map_cons, hz.signature, ih]
  have hall : rows.map (·.1.signature) = (splits [] rows).map (·.2.1.1.signature) := by
    conv_lhs => rw [← map_splits [] rows, List.map_map]
    rfl
  rw [heq]
  exact (hall ▸ hrows).sublist (List.filter_sublist.map _)

private theorem nodup_rowsAt (hrows : (rows.map (·.1.signature)).Nodup) (k : Nat) :
    ((rowsAt gs k).map Prod.fst).Nodup := by
  rw [h.map_fst_rowsAt]
  exact (h.nodup_grafts hrows).sublist (List.filter_sublist.map _)

/-- A signature of a graft tells where it is grafted in. -/
private theorem disjoint_rowsAt (hrows : (rows.map (·.1.signature)).Nodup) {k k' : Nat} (hk : k ≠ k') :
    ((rowsAt gs k).map Prod.fst).Disjoint ((rowsAt gs k').map Prod.fst) := by
  intro sig hsig hsig'
  rw [h.map_fst_rowsAt] at hsig hsig'
  obtain ⟨g, hg, rfl⟩ := List.mem_map.mp hsig
  obtain ⟨g', hg', heq⟩ := List.mem_map.mp hsig'
  simp only [List.mem_filter, beq_iff_eq] at hg hg'
  obtain rfl := List.inj_on_of_nodup_map (h.nodup_grafts hrows) hg'.1 hg.1 heq
  exact hk (hg.2.symm.trans hg'.2)

/-- The base lacks what is grafted in. -/
private theorem not_mem_rowsAt {n : Node} (hn : n ∈ ns) (k : Nat) :
    n.signature ∉ (rowsAt gs k).map Prod.fst := by
  intro hsig
  rw [h.map_fst_rowsAt] at hsig
  obtain ⟨g, hg, hsig⟩ := List.mem_map.mp hsig
  obtain ⟨q, -, hkey, -, hlack⟩ := h.graft_row (List.mem_of_mem_filter hg)
  rw [← hkey, hsig, ← Bool.not_eq_true, h.indexed.contains_iff] at hlack
  exact hlack (List.mem_map_of_mem (h.sublist.subset hn))

omit h in
private theorem signature_of_result {n : Node} {sig : String}
    (hsig : sig ∈ ((result n).map (n.signature, ·)).map Prod.fst) : sig = n.signature := by
  simp only [List.map_map, List.mem_map, Function.comp_apply] at hsig
  obtain ⟨f, -, rfl⟩ := hsig
  rfl

/-- The rows of a lane are apart. -/
theorem nodup_laneRows (hcuts : w.base.source.Cuts w.language)
    (hlo : ∀ n ∈ ns, lo < (n.span w.base.source).2) (hrows : (rows.map (·.1.signature)).Nodup) :
    ((laneRows w.base.source lo ns result gs).map Prod.fst).Nodup := by
  rw [laneRows, List.map_append, List.map_flatMap, List.nodup_append', List.nodup_flatMap]
  refine ⟨h.nodup_rowsAt hrows lo, ⟨fun n hn => ?_, ?_⟩, ?_⟩
  · rw [List.map_append, List.nodup_append']
    refine ⟨?_, h.nodup_rowsAt hrows _, fun sig hsig => signature_of_result hsig ▸ h.not_mem_rowsAt hn _⟩
    obtain ⟨k, f, -, -, hfate⟩ := h.fates n hn
    rw [List.map_map]
    have hsingle := hfate.single
    match result n, hsingle with
    | [], _ => exact List.nodup_nil
    | [f], _ => exact List.nodup_singleton _
  · have hsigs : ns.Pairwise fun n n' => n.signature ≠ n'.signature :=
      List.pairwise_map.mp (h.indexed.nodup.sublist (h.sublist.map Node.signature))
    refine ((h.base.ends hcuts).and hsigs).imp_of_mem fun {n n'} hn hn' hne sig hsig hsig' => ?_
    simp only [List.map_append, List.mem_append] at hsig hsig'
    rcases hsig with hsig | hsig <;> rcases hsig' with hsig' | hsig'
    · exact hne.2 ((signature_of_result hsig).symm.trans (signature_of_result hsig'))
    · exact h.not_mem_rowsAt hn _ (signature_of_result hsig ▸ hsig')
    · exact h.not_mem_rowsAt hn' _ (signature_of_result hsig' ▸ hsig)
    · exact h.disjoint_rowsAt hrows (Nat.ne_of_lt hne.1.2) hsig hsig'
  · intro sig hsig hsig'
    obtain ⟨n, hn, hsig'⟩ := List.mem_flatMap.mp hsig'
    rw [List.map_append, List.mem_append] at hsig'
    rcases hsig' with hsig' | hsig'
    · exact h.not_mem_rowsAt hn _ (signature_of_result hsig' ▸ hsig)
    · exact h.disjoint_rowsAt hrows (Nat.ne_of_lt (hlo n hn)) hsig hsig'

end LaneMerge

section Lanes

variable {w : Settlement} {path : List String} {m m' : ChildMap Node} {i k j k' a b lo lo₂ : Nat}
  {body body' clauses clauses' fs fs₂ woven woven₂ : List Form} {ns cs ns' cs' : List Node}
  {rows rows₂ : Rows} {part : Node → Changes} {result : Node → List Form} {gs gs₂ : List Graft}

/-- A container of which both lanes are merged is blended. -/
theorem blends_of_lanes (hcuts : w.base.source.Cuts w.language)
    (base : Lanes w.language w.base.source i k body clauses m ns cs)
    (mod : Lanes w.language w.mod.source j k' body' clauses' m' ns' cs')
    (lane : LaneMerge w path m m' false a lo fs body' ns rows (rows ++ rows₂) part result gs)
    (chain : LaneMerge w path m m' true b lo₂ fs₂ clauses' cs rows₂ (rows ++ rows₂) part result gs₂)
    (listed : rows.map Prod.fst = ns') (listed₂ : rows₂.map Prod.fst = cs')
    (hlo : ∀ n ∈ ns, lo < (n.span w.base.source).2) (hlo₂ : ∀ n ∈ cs, lo₂ < (n.span w.base.source).2)
    (ho : Outcome fs ns w.base.source gs result woven)
    (ho₂ : Outcome fs₂ cs w.base.source gs₂ result woven₂) :
    Blends w.language w.base.source w.mod.source m m'
      ((graftsAt gs lo ++ woven) ++ (graftsAt gs₂ lo₂ ++ woven₂)) := by
  have hnodes : (rows ++ rows₂).map Prod.fst = m'.nodes := by
    rw [List.map_append, listed, listed₂, mod.nodes]
  have hsigs : ((rows ++ rows₂).map (·.1.signature)).Nodup := by
    have hnodup := mod.indexed.nodup
    rw [ChildMap.signatures, ← hnodes, List.map_map] at hnodup
    exact hnodup
  rw [List.map_append] at hsigs
  -- a signature tells the lane, on whichever side it is
  have hclause {n n' : Node} (hn : n ∈ m.nodes ∨ n ∈ m'.nodes) (hn' : n' ∈ m.nodes ∨ n' ∈ m'.nodes)
      (hsig : n.signature = n'.signature) : n.kind.isClause = n'.kind.isClause := by
    rcases hn with hn | hn <;> rcases hn' with hn' | hn'
    · exact (base.same_lane base hn hn' hsig).1
    · exact (base.same_lane mod hn hn' hsig).1
    · exact (mod.same_lane base hn hn' hsig).1
    · exact (mod.same_lane mod hn hn' hsig).1
  refine .intro (laneRows w.base.source lo ns result gs ++ laneRows w.base.source lo₂ cs result gs₂) base mod
    ?_ ?_ ?_ ?_
  · rw [List.map_append, LaneMerge.map_snd_laneRows ho, LaneMerge.map_snd_laneRows ho₂, ← solids_append]
  · rw [List.map_append, List.nodup_append']
    refine ⟨lane.nodup_laneRows hcuts hlo (List.Nodup.of_append_left hsigs),
      chain.nodup_laneRows hcuts hlo₂ (List.Nodup.of_append_right hsigs), fun sig hsig hsig' => ?_⟩
    obtain ⟨p, hp, rfl⟩ := List.mem_map.mp hsig
    obtain ⟨p', hp', heq⟩ := List.mem_map.mp hsig'
    obtain ⟨n, hn, hnsig, hnkind⟩ := lane.clause_of_row hp
    obtain ⟨n', hn', hnsig', hnkind'⟩ := chain.clause_of_row hp'
    have := hclause hn hn' (by rw [hnsig, hnsig', heq])
    rw [hnkind, hnkind'] at this
    cases this
  · intro n hn
    rw [← hnodes] at hn
    obtain ⟨q, hq, rfl⟩ := List.mem_map.mp hn
    rcases List.mem_append.mp hq with hq | hq
    · obtain ⟨f, hf⟩ := lane.exists_row hq
      exact ⟨f, List.mem_append_left _ hf⟩
    · obtain ⟨f, hf⟩ := chain.exists_row hq
      exact ⟨f, List.mem_append_right _ hf⟩
  · intro p hp
    rcases List.mem_append.mp hp with hp | hp
    · exact lane.comesFrom hp
    · exact chain.comesFrom hp

end Lanes

end ModWeave
