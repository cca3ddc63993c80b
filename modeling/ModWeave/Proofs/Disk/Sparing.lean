import ModWeave.Proofs.Disk.Writing

/-! What a disk keeps while files come and go in some places: elsewhere nothing changes, but that folders are
made on the way to those places. Whether a file can be put somewhere else does not change by that. -/
namespace ModWeave.Disk

/-- A disk that changed in some places and below a folder. Elsewhere folders were made on the way there,
where one could be. -/
structure Spares (d : Disk) (spots : List Path) (folder : Path) (d' : Disk) : Prop where
  refuses : d'.refuses = d.refuses
  item? : ∀ q, q ∉ spots → ¬ folder <+: q → d'.item? q = d.item? q ∨
    d.IsFree q ∧ d'.item? q = some .folder ∧ ∃ r ∈ folder :: spots, q <+: r

variable {d d' d'' : Disk} {spots more : List Path} {folder path q : Path} {content : Content}

namespace Spares

theorem refl (d : Disk) (spots : List Path) (folder : Path) : d.Spares spots folder d :=
  ⟨rfl, fun _ _ _ => .inl rfl⟩

theorem mono (h : d.Spares spots folder d') (hsub : spots ⊆ more) : d.Spares more folder d' := by
  refine ⟨h.refuses, fun q hq hfolder => ?_⟩
  refine (h.item? q (fun hmem => hq (hsub hmem)) hfolder).imp_right ?_
  rintro ⟨hfree, hmade, r, hr, hqr⟩
  exact ⟨hfree, hmade, r, List.cons_subset_cons folder hsub hr, hqr⟩

theorem trans (h : d.Spares spots folder d') (h' : d'.Spares spots folder d'') :
    d.Spares spots folder d'' := by
  refine ⟨h'.refuses.trans h.refuses, fun q hq hfolder => ?_⟩
  obtain hsame | ⟨hfree, hmade, hway⟩ := h.item? q hq hfolder
  · rw [← hsame]
    refine (h'.item? q hq hfolder).imp_right ?_
    rintro ⟨hfree, hmade, hway⟩
    exact ⟨hfree.of_item?_eq hsame.symm h.refuses.symm, hmade, hway⟩
  · refine .inr ⟨hfree, ?_, hway⟩
    obtain hsame' | ⟨-, hmade', -⟩ := h'.item? q hq hfolder
    · rw [hsame', hmade]
    · exact hmade'

/-- Files stay as they are. -/
theorem read? (h : d.Spares spots folder d') (hq : q ∉ spots) (hfolder : ¬ folder <+: q) :
    d'.read? q = d.read? q := by
  obtain hsame | ⟨hfree, hmade, -⟩ := h.item? q hq hfolder
  · exact read?_eq_of_item?_eq hsame
  · refine Option.ext fun content => ?_
    simp [read?_eq_some_iff, hmade, hfree.ne_file content]

theorem isFree_iff (h : d.Spares spots folder d') (hq : q ∉ spots) (hfolder : ¬ folder <+: q) :
    d'.IsFree q ↔ d.IsFree q := by
  obtain hsame | ⟨hfree, hmade, -⟩ := h.item? q hq hfolder
  · exact ⟨fun h' => h'.of_item?_eq hsame.symm h.refuses.symm, fun h' => h'.of_item?_eq hsame h.refuses⟩
  · exact iff_of_true (Disk.isFree_iff.2 (.inl hmade)) hfree

/-- There is a spot for a file as there was before, if none of the places is on the way to it and it is on
the way to none of them. -/
theorem hasSpot_iff (h : d.Spares spots folder d')
    (hspots : ∀ r ∈ folder :: spots, ¬ r <+: path ∧ ¬ path <+: r) : d'.HasSpot path ↔ d.HasSpot path := by
  have hspared {q : Path} (hq : q <+: path) : q ∉ spots ∧ ¬ folder <+: q :=
    ⟨fun hmem => (hspots q (List.mem_cons_of_mem _ hmem)).1 hq,
      fun hfolder => (hspots folder List.mem_cons_self).1 (hfolder.trans hq)⟩
  have hway : d'.IsOpen path.dropLast ↔ d.IsOpen path.dropLast :=
    forall₂_congr fun q hq =>
      have hq := hspared (hq.trans (List.dropLast_prefix path))
      h.isFree_iff hq.1 hq.2
  have hitem : d'.item? path = d.item? path := by
    obtain ⟨hpath, hfolder⟩ := hspared (List.prefix_refl path)
    refine (h.item? path hpath hfolder).resolve_right ?_
    rintro ⟨-, -, r, hr, hpathr⟩
    exact (hspots r hr).2 hpathr
  have hnoFolder : d'.isFolder path = false ↔ d.isFolder path = false := by
    rw [isFolder_eq_false_iff, isFolder_eq_false_iff, hitem]
  constructor
  · rintro ⟨hopen, hfolder, hvalid, htakes⟩
    exact ⟨hway.1 hopen, hnoFolder.1 hfolder, hvalid, h.refuses ▸ htakes⟩
  · rintro ⟨hopen, hfolder, hvalid, htakes⟩
    exact ⟨hway.2 hopen, hnoFolder.2 hfolder, hvalid, h.refuses ▸ htakes⟩

end Spares

/-- Making folders changes nothing but that they are there. -/
theorem spares_makeFolders? (h : d.makeFolders? path = some d') (hpath : folder <+: path) :
    d.Spares [] folder d' := by
  have hopen := isOpen_of_makeFolders? h
  obtain ⟨d₁, hmade, -, hrefuses, hitem⟩ := makeFolders?_of_isOpen hopen
  obtain rfl := Option.some.inj (hmade.symm.trans h)
  refine ⟨hrefuses, fun q _ hfolder => ?_⟩
  by_cases hq : q <+: path
  · have hbefore := (List.prefix_or_prefix_of_prefix hpath hq).resolve_left hfolder
    exact .inr ⟨hopen q hq, by rw [hitem, if_pos hq], folder, List.mem_cons_self, hbefore⟩
  · exact .inl (by rw [hitem, if_neg hq])

theorem spares_write? (h : d.write? path content = some d') (hpath : folder <+: path) :
    d.Spares [] folder d' := by
  unfold write? at h
  split at h
  · cases h
  · next hfolder =>
    split at h
    · cases h
      refine ⟨rfl, fun q _ hq => .inl ?_⟩
      rw [item?_insert fun hitem => hfolder (isFolder_iff.2 hitem), if_neg]
      rintro rfl
      exact hq hpath
    · cases h

theorem item?_remove? (h : d.remove? path = some d') (q : Path) :
    d'.item? q = if q = path then none else d.item? q := by
  unfold remove? at h
  split at h
  · next hfile =>
    cases h
    unfold isFile read? item? at hfile
    unfold item?
    split
    · next hanchor =>
      rw [if_neg]
      rintro rfl
      simp [hanchor] at hfile
    · simp [Std.TreeMap.getElem?_erase, eq_comm (a := path)]
  · cases h

theorem spares_move? {source : Path} (h : d.move? source path = some d') (hsource : folder <+: source)
    (hpath : folder <+: path) : d.Spares [] folder d' := by
  simp only [move?, Option.bind_eq_bind, Option.bind_eq_some_iff] at h
  obtain ⟨content, -, d₁, hwritten, h⟩ := h
  have hspares := spares_write? hwritten hpath
  split at h
  · obtain rfl := Option.some.inj h
    exact hspares
  · refine hspares.trans ⟨?_, fun q _ hq => .inl ?_⟩
    · unfold remove? at h
      split at h
      · cases h
        rfl
      · cases h
    · rw [item?_remove? h, if_neg]
      rintro rfl
      exact hq hsource

/-- Where a file was moved away, none is. -/
theorem read?_move?_of_ne {source : Path} (h : d.move? source path = some d') (hq : q ≠ path) :
    d'.read? q = if q = source then none else d.read? q := by
  split
  · next heq =>
    subst heq
    simp only [move?, Option.bind_eq_bind, Option.bind_eq_some_iff] at h
    obtain ⟨content, -, d₁, -, h⟩ := h
    rw [if_neg hq] at h
    refine Option.ext fun content => ?_
    simp [read?_eq_some_iff, item?_remove? h]
  · next hne => exact read?_move? h hne hq

/-- Putting a file in its place changes nothing but the place. -/
theorem Puts.spares (h : d.Puts path content d') (hspot : d.HasSpot path) (folder : Path) :
    d.Spares [path] folder d' := by
  refine ⟨h.refuses, fun q hq _ => ?_⟩
  rw [List.mem_singleton] at hq
  rw [h.item?, if_neg hq]
  by_cases hbefore : q <+: path
  · exact .inr ⟨hspot.isFree hbefore hq, if_pos hbefore, path, by simp, hbefore⟩
  · exact .inl (if_neg hbefore)

/-- A file can be put over one that was. -/
theorem Puts.hasSpot (h : d.Puts path content d') (hspot : d.HasSpot path) : d'.HasSpot path := by
  refine ⟨fun q hq => ?_, ?_, hspot.isValid, h.refuses ▸ hspot.takes⟩
  · obtain ⟨hbefore, hne⟩ := (Path.isPrefix_dropLast_iff hspot.ne_nil).1 hq
    exact Disk.isFree_iff.2 (.inl (by rw [h.item?, if_neg hne, if_pos hbefore]))
  · rw [isFolder_eq_false_iff, h.item?, if_pos rfl]
    simp

/-- Puts a file in its place. The folders above it are made. -/
def put? (d : Disk) (path : Path) (content : Content) : Option Disk :=
  (d.makeFolders? path.dropLast).bind (·.write? path content)

/-- A file is put in its place exactly when there is a spot for it. -/
theorem put?_cases (d : Disk) (path : Path) (content : Content) :
    (d.put? path content = none ∧ ¬ d.HasSpot path) ∨
      ∃ d', d.put? path content = some d' ∧ d.HasSpot path ∧ d.Puts path content d' := by
  cases h : d.put? path content with
  | none =>
    refine .inl ⟨rfl, fun hspot => ?_⟩
    obtain ⟨d₁, d₂, hmade, hwritten, -⟩ := hspot.puts content
    rw [put?, hmade, Option.bind_some, hwritten] at h
    cases h
  | some d' =>
    obtain ⟨d₁, hmade, hwritten⟩ := Option.bind_eq_some_iff.1 h
    have hspot := hasSpot_of_write? hmade hwritten
    obtain ⟨d₂, d₃, hmade', hwritten', hputs⟩ := hspot.puts content
    rw [hmade'] at hmade
    cases hmade
    rw [hwritten'] at hwritten
    cases hwritten
    exact .inr ⟨_, rfl, hspot, hputs⟩

theorem puts_of_put? (h : d.put? path content = some d') : d.HasSpot path ∧ d.Puts path content d' := by
  obtain ⟨hnone, -⟩ | ⟨d₁, hput, hputs⟩ := d.put?_cases path content
  · rw [h] at hnone
    cases hnone
  · rw [h] at hput
    cases hput
    exact hputs

end ModWeave.Disk
