import ModWeave.Proofs.Merge.LaneMerge

/-! A container that is looked into is merged lane by lane. -/
namespace ModWeave

section Lists

variable {α β : Type} {R : α → β → Prop} {xs xs' : List α} {ys : List β}

/-- Elements that are all different are mapped to those that they stand side by side with. -/
theorem exists_map_of_forall₂ [Nonempty β] (h : List.Forall₂ R xs ys) (hxs : xs.Nodup) :
    ∃ f : α → β, ys = xs.map f ∧ ∀ x ∈ xs, R x (f x) := by
  classical
  induction h with
  | nil => exact ⟨fun _ => Classical.choice inferInstance, rfl, by simp⟩
  | @cons x y xs ys hxy _ ih =>
    rw [List.nodup_cons] at hxs
    obtain ⟨f, rfl, hf⟩ := ih hxs.2
    have hrest : ∀ z ∈ xs, Function.update f x y z = f z := fun z hz =>
      Function.update_of_ne (ne_of_mem_of_not_mem hz hxs.1) y f
    refine ⟨Function.update f x y, ?_, ?_⟩
    · rw [List.map_cons, Function.update_self, List.map_congr_left hrest]
    · rw [List.forall_mem_cons, Function.update_self]
      exact ⟨hxy, fun z hz => (hrest z hz).symm ▸ hf z hz⟩

theorem forall₂_append_left (h : List.Forall₂ R (xs ++ xs') ys) :
    ∃ zs zs', ys = zs ++ zs' ∧ List.Forall₂ R xs zs ∧ List.Forall₂ R xs' zs' := by
  induction xs generalizing ys with
  | nil => exact ⟨[], ys, rfl, .nil, h⟩
  | cons x xs ih =>
    cases h with
    | cons hxy h =>
      obtain ⟨zs, zs', rfl, hzs, hzs'⟩ := ih h
      exact ⟨_ :: zs, zs', rfl, .cons hxy hzs, hzs'⟩

end Lists

section Opened

variable {w : Settlement} {path : List String} {m m' : ChildMap Node} {i k j k' lo lo' : Nat}
  {body clauses body' clauses' : List Form} {ns cs ns' cs' : List Node} {x y : Node}
  {parts : List Changes} {as : List Addition}

/-- What becomes of the children of a container, one by one. -/
private theorem exists_fates {rows rows₂ : Rows} (hs : w.base.source.Cuts w.language)
    (ht : w.mod.source.Cuts w.language)
    (hlanes : Lanes w.language w.base.source i k body clauses m ns cs)
    (hlanes' : Lanes w.language w.mod.source j k' body' clauses' m' ns' cs')
    (hordered : orderedAll (body ++ clauses) = true) (hordered' : orderedAll (body' ++ clauses') = true)
    (hrows : RowsOf w.language w.mod.source body' ns' rows)
    (hrows₂ : RowsOf w.language w.mod.source clauses' cs' rows₂)
    (hparts : List.Forall₂ (ChildPart w.names w.base.source w.mod.source w.Known path m') m.nodes parts) :
    ∃ (part : Node → Changes) (result : Node → List Form), parts = m.nodes.map part ∧
      ∀ n ∈ m.nodes, ∃ k f, f ∈ body ++ clauses ∧ Standing w.language w.base.source k f n ∧
        w.Fate path m' (fun twin g => (twin, g) ∈ rows ++ rows₂) n f (part n) (result n) := by
  have hnodes : (rows ++ rows₂).map Prod.fst = m'.nodes := by
    rw [List.map_append, hrows.nodes, hrows₂.nodes, hlanes'.nodes]
  have hforms : (rows ++ rows₂).map Prod.snd = solids (body' ++ clauses') := by
    rw [List.map_append, hrows.forms, hrows₂.forms, solids_append]
  have hnodup : m.nodes.Nodup := hlanes.indexed.nodup.of_map _
  have hnodup' : ((rows ++ rows₂).map Prod.fst).Nodup := hnodes ▸ hlanes'.indexed.nodup.of_map _
  have hstands {q : Node × Form} (hq : q ∈ rows ++ rows₂) :
      ∃ k, Standing w.language w.mod.source k q.2 q.1 := by
    rcases List.mem_append.mp hq with hq | hq
    · exact hrows.standing q hq
    · exact hrows₂.standing q hq
  have : Nonempty Changes := ⟨.none⟩
  obtain ⟨part, rfl, hpart⟩ := exists_map_of_forall₂ hparts hnodup
  have hfate (n : Node) (hn : n ∈ m.nodes) : ∃ fs, ∃ k f, f ∈ body ++ clauses ∧
      Standing w.language w.base.source k f n ∧
        w.Fate path m' (fun twin g => (twin, g) ∈ rows ++ rows₂) n f (part n) fs := by
    obtain ⟨k, f, hf, hstand⟩ : ∃ k f, f ∈ body ++ clauses ∧ Standing w.language w.base.source k f n := by
      have hsplit := hn
      rw [hlanes.nodes, List.mem_append] at hsplit
      rcases hsplit with hn | hn
      · obtain ⟨k, f, hf, hstand, -⟩ := hlanes.statements.within hn
        exact ⟨k, f, List.mem_append_left _ hf, hstand⟩
      · obtain ⟨k, f, hf, hstand, -⟩ := hlanes.chain.within hn
        exact ⟨k, f, List.mem_append_right _ hf, hstand⟩
    have htwins (twin : Node) (htwin : m'.get? n.signature = some twin) : ∃ k g, (twin, g) ∈ rows ++ rows₂ ∧
        Standing w.language w.mod.source k g twin ∧ g.ordered = true ∧
          n.kind.isClause = twin.kind.isClause ∧ (n.kind == .otherwise) = (twin.kind == .otherwise) := by
      obtain ⟨hmem, hsig⟩ := hlanes'.indexed.get?_eq_some.mp htwin
      have hlane := hlanes.same_lane hlanes' hn hmem hsig.symm
      rw [← hnodes] at hmem
      obtain ⟨q, hq, rfl⟩ := List.mem_map.mp hmem
      obtain ⟨k, hk⟩ := hstands hq
      have hform : q.2 ∈ solids (body' ++ clauses') := hforms ▸ List.mem_map_of_mem hq
      exact ⟨k, q.2, hq, hk, orderedAll_iff.mp hordered' q.2 (List.mem_of_mem_filter hform), hlane⟩
    have hfun (twin : Node) (g g' : Form) (hg : (twin, g) ∈ rows ++ rows₂)
        (hg' : (twin, g') ∈ rows ++ rows₂) : g = g' :=
      (Prod.mk.inj (List.inj_on_of_nodup_map hnodup' hg hg' rfl)).2
    obtain ⟨fs, hfs⟩ := Settlement.exists_fate hs ht hstand (orderedAll_iff.mp hordered f hf) htwins hfun
      (hpart n hn)
    exact ⟨fs, k, f, hf, hstand, hfs⟩
  choose! result hresult using hfate
  exact ⟨part, result, rfl, hresult⟩

private theorem splits_lanes (rows rows₂ : Rows) :
    splits [] (rows.map Prod.fst ++ rows₂.map Prod.fst) =
      (splits [] rows).map (fun z =>
        ([] ++ z.1.map Prod.fst, z.2.1.1, z.2.2.map Prod.fst ++ rows₂.map Prod.fst)) ++
      (splits [] rows₂).map fun z => (rows.map Prod.fst ++ z.1.map Prod.fst, z.2.1.1,
        z.2.2.map Prod.fst ++ []) := by
  have hfront := splits_front (rows.map Prod.fst) [] (rows₂.map Prod.fst)
  have hmap (rows : Rows) := splits_map Prod.fst [] rows
  rw [List.map_nil] at hmap
  rw [List.append_nil] at hfront
  rw [splits_append, List.nil_append, hfront, hmap, hmap, List.map_map, List.map_map]
  simp [Function.comp_def]

/-- A container is merged in two lanes, each with its own grafts. -/
theorem exists_laneMerges (lo lo' : Nat) (hs : w.base.source.Cuts w.language) (ht : w.mod.source.Cuts w.language)
    (hlanes : Lanes w.language w.base.source i k body clauses m ns cs)
    (hlanes' : Lanes w.language w.mod.source j k' body' clauses' m' ns' cs')
    (hordered : orderedAll (body ++ clauses) = true) (hordered' : orderedAll (body' ++ clauses') = true)
    (hparts : List.Forall₂ (ChildPart w.names w.base.source w.mod.source w.Known path m') m.nodes parts)
    (has : List.Forall₂ (AdditionOf ⟨w.base.source, w.mod.source, x, y, m⟩ path)
      ((splits [] m'.nodes).filter fun z => !m.contains z.2.1.signature) as)
    (hfrom : ∀ n ∈ ns', LaneFrom ⟨w.base.source, w.mod.source, x, y, m⟩ n j lo)
    (hfrom' : ∀ n ∈ cs', LaneFrom ⟨w.base.source, w.mod.source, x, y, m⟩ n k' lo') :
    ∃ (rows rows₂ : Rows) (part : Node → Changes) (result : Node → List Form) (gs gs₂ : List Graft),
      parts = m.nodes.map part ∧ as = (gs ++ gs₂).map Graft.addition ∧
      rows.map Prod.fst = ns' ∧ rows₂.map Prod.fst = cs' ∧
      LaneMerge w path m m' false i lo body body' ns rows (rows ++ rows₂) part result gs ∧
      LaneMerge w path m m' true k lo' clauses clauses' cs rows₂ (rows ++ rows₂) part result gs₂ := by
  obtain ⟨rows, hrows⟩ := hlanes'.statements.exists_rows
  obtain ⟨rows₂, hrows₂⟩ := hlanes'.chain.exists_rows
  obtain ⟨part, result, hpart, hfates⟩ :=
    exists_fates hs ht hlanes hlanes' hordered hordered' hrows hrows₂ hparts
  rw [orderedAll_iff] at hordered'
  have hmem {q : Node × Form} (hq : q ∈ rows) : q.1 ∈ ns' := hrows.nodes ▸ List.mem_map_of_mem hq
  have hmem₂ {q : Node × Form} (hq : q ∈ rows₂) : q.1 ∈ cs' := hrows₂.nodes ▸ List.mem_map_of_mem hq
  rw [hlanes'.nodes, ← hrows.nodes, ← hrows₂.nodes, splits_lanes, List.filter_append, List.filter_map,
    List.filter_map] at has
  obtain ⟨as, as₂, rfl, has, has₂⟩ := forall₂_append_left has
  rw [List.forall₂_map_left_iff] at has has₂
  obtain ⟨gs, hgs, hgrafts⟩ := exists_laneGrafts ht hlanes'.statements hrows
    (fun q hq q' hq' => by rw [hlanes'.statement (hmem hq), hlanes'.statement (hmem hq')])
    (by simp) (fun q hq n hn => by
      rw [hrows₂.nodes] at hn
      simp [hlanes'.statement (hmem hq), hlanes'.clause hn])
    (fun q hq => hfrom q.1 (hmem hq)) has
  obtain ⟨gs₂, hgs₂, hgrafts₂⟩ := exists_laneGrafts ht hlanes'.chain hrows₂
    (fun q hq q' hq' => by rw [hlanes'.clause (hmem₂ hq), hlanes'.clause (hmem₂ hq')])
    (fun q hq n hn => by
      rw [hrows.nodes] at hn
      simp [hlanes'.clause (hmem₂ hq), hlanes'.statement hn]) (by simp)
    (fun q hq => hfrom' q.1 (hmem₂ hq)) has₂
  refine ⟨rows, rows₂, part, result, gs, gs₂, hpart, by rw [List.map_append, hgs, hgs₂],
    hrows.nodes, hrows₂.nodes, ?_, ?_⟩
  · refine ⟨hlanes.statements, hlanes.indexed, hlanes.nodes ▸ List.sublist_append_left _ _, hlanes.plain,
      ⟨rfl, hrows.forms, hrows.standing⟩, hlanes'.indexed, fun q hq => ⟨?_, List.mem_append_left _ hq⟩,
      fun f hf => ⟨hlanes'.statements.sound f hf, hlanes'.plain f hf,
        hordered' f (List.mem_append_left _ hf)⟩, fun q hq n hn => ?_, fun n hn => ?_, hgrafts⟩
    · rw [hlanes'.nodes]
      exact List.mem_append_left _ (hmem hq)
    · obtain ⟨hn, hsig⟩ := hlanes.indexed.get?_eq_some.mp hn
      refine hlanes.mem_statements hn ?_
      rw [(hlanes.same_lane hlanes' hn (hlanes'.nodes ▸ List.mem_append_left _ (hmem hq)) hsig).1]
      exact hlanes'.statement (hmem hq)
    · obtain ⟨k, f, hf, hstand, hfate⟩ := hfates n (hlanes.nodes ▸ List.mem_append_left _ hn)
      have hkind := hlanes.statement hn
      rw [hstand.isClause] at hkind
      refine ⟨k, f, (List.mem_append.mp hf).resolve_right fun hf => ?_, hstand, hfate⟩
      simp [hlanes.hung f hf] at hkind
  · refine ⟨hlanes.chain, hlanes.indexed, hlanes.nodes ▸ List.sublist_append_right _ _, hlanes.hung,
      ⟨rfl, hrows₂.forms, hrows₂.standing⟩, hlanes'.indexed, fun q hq => ⟨?_, List.mem_append_right _ hq⟩,
      fun f hf => ⟨hlanes'.chain.sound f hf, hlanes'.hung f hf,
        hordered' f (List.mem_append_right _ hf)⟩, fun q hq n hn => ?_, fun n hn => ?_, hgrafts₂⟩
    · rw [hlanes'.nodes]
      exact List.mem_append_right _ (hmem₂ hq)
    · obtain ⟨hn, hsig⟩ := hlanes.indexed.get?_eq_some.mp hn
      refine hlanes.mem_chain hn ?_
      rw [(hlanes.same_lane hlanes' hn (hlanes'.nodes ▸ List.mem_append_right _ (hmem₂ hq)) hsig).1]
      exact hlanes'.clause (hmem₂ hq)
    · obtain ⟨k, f, hf, hstand, hfate⟩ := hfates n (hlanes.nodes ▸ List.mem_append_right _ hn)
      have hkind := hlanes.clause hn
      rw [hstand.isClause] at hkind
      refine ⟨k, f, (List.mem_append.mp hf).resolve_left fun hf => ?_, hstand, hfate⟩
      simp [hlanes.plain f hf] at hkind

end Opened

end ModWeave
