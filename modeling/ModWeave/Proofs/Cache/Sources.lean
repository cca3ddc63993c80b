import ModWeave.Proofs.Run.Lookup

/-!
Where the entries of an index are read from: a file that the disk has, which is the archive itself or lies
below the folder that the archive was visited with. No other file changes while an archive is visited.
-/
namespace ModWeave

/-- A disk that has all files that it had. Only those below a folder may have changed. -/
structure Disk.Grows (d : Disk) (folder : Path) (d' : Disk) : Prop where
  isFile : ∀ q, d.isFile q = true → d'.isFile q = true
  read? : ∀ q, ¬ folder <+: q → d'.read? q = d.read? q

namespace Disk

variable {d d' d'' : Disk} {folder path : Path} {content : Content}

theorem Grows.refl (d : Disk) (folder : Path) : d.Grows folder d := ⟨fun _ => id, fun _ _ => rfl⟩

theorem Grows.trans (h : d.Grows folder d') (h' : d'.Grows folder d'') : d.Grows folder d'' where
  isFile q hq := h'.isFile q (h.isFile q hq)
  read? q hq := (h'.read? q hq).trans (h.read? q hq)

theorem grows_makeFolders? (h : d.makeFolders? path = some d') (folder : Path) : d.Grows folder d' where
  isFile q hq := by rwa [Disk.isFile, read?_makeFolders? h]
  read? q _ := read?_makeFolders? h q

theorem grows_write? (h : d.write? path content = some d') (hpath : folder <+: path) :
    d.Grows folder d' where
  isFile q hq := by
    rw [Disk.isFile, read?_write? h]
    split
    · rfl
    · exact hq
  read? q hq := by
    rw [read?_write? h, if_neg]
    rintro rfl
    exact hq hpath

end Disk

theorem Disk.isFile_of_open? {d : Disk} {source : String} {content : Content}
    (h : d.open? source = some content) : d.isFile (Path.ofText source) = true := by
  simp only [Disk.open?, Disk.resolve?] at h
  split at h
  · rw [Disk.isFile, show d.read? (Path.ofText source) = some content from h]
    rfl
  · cases h

namespace Index

/-- Every entry is read from a file on the disk, the one given or one below the folder. -/
def Sourced (i : Index) (d : Disk) (top folder : Path) : Prop :=
  ∀ name e, i.get? name = some e →
    d.isFile e.location.file = true ∧ (e.location.file = top ∨ folder <+: e.location.file)

variable {i : Index} {d d' : Disk} {top folder : Path}

theorem sourced_new (source : String) (d : Disk) (top folder : Path) : (new source).Sourced d top folder := by
  simp [Sourced, get?, new]

theorem Sourced.grows (h : i.Sourced d top folder) (hd : d.Grows folder d') : i.Sourced d' top folder :=
  fun name e he => ⟨hd.isFile _ (h name e he).1, (h name e he).2⟩

theorem Sourced.register (h : i.Sourced d top folder) {e : Entry} (hfile : d.isFile e.location.file = true)
    (hplace : e.location.file = top ∨ folder <+: e.location.file) : (i.register e).Sourced d top folder := by
  intro name f hf
  rw [get?_register] at hf
  split at hf
  · cases hf
    exact ⟨hfile, hplace⟩
  · exact h name f hf

end Index

namespace Visit

/-- A visit that has come on: the disk has grown, and what is registered is read from files. -/
structure Leads (v : Visit) (top folder : Path) (after : Visit) : Prop where
  grows : v.disk.Grows folder after.disk
  sourced : v.index.Sourced v.disk top folder → after.index.Sourced after.disk top folder

variable {v after last : Visit} {top folder path : Path} {size : Nat} {content? : Option Content}

namespace Leads

theorem trans (h : v.Leads top folder after) (h' : after.Leads top folder last) : v.Leads top folder last :=
  ⟨h.grows.trans h'.grows, fun hv => h'.sourced (h.sourced hv)⟩

theorem of_grows (hd : v.disk.Grows folder after.disk) (hi : after.index = v.index) :
    v.Leads top folder after := ⟨hd, fun hv => hi ▸ hv.grows hd⟩

/-- How it has gone so far has no part in it. -/
theorem of_eq (hd : after.disk = v.disk) (hi : after.index = v.index) : v.Leads top folder after :=
  of_grows (hd ▸ .refl _ _) hi

end Leads

theorem leads_write (v : Visit) (top : Path) (hpath : folder <+: path) (size : Nat)
    (content? : Option Content) : v.Leads top folder (v.write path size content?) := by
  refine .of_grows ?_ (index_write v path size content?)
  unfold write
  dsimp only
  split
  · exact .refl _ _
  · next d hmade =>
    have hgrows := Disk.grows_makeFolders? hmade folder
    split
    · next hwritten _ => exact hgrows.trans (Disk.grows_write? hwritten hpath)
    · next hwritten _ => exact hgrows.trans (Disk.grows_write? hwritten hpath)
    · exact hgrows

theorem isFile_write (h : (v.write path size content?).failure = none) :
    (v.write path size content?).disk.isFile path = true := by
  rw [Disk.isFile, read?_write h]
  rfl

theorem leads_file {mode : IndexMode} {c : Container} {raw name : String}
    (hfile : v.disk.isFile c.path = true) (hpath : c.path = top ∨ folder <+: c.path)
    (htarget : folder <+: c.target) : v.Leads top folder (v.file mode c raw name size content?) := by
  cases mode with
  | index => exact ⟨.refl _ _, fun hv => hv.register hfile hpath⟩
  | extract =>
    have hbelow : folder <+: c.target ++ EntryName.segments name := htarget.trans (List.prefix_append _ _)
    have hwritten := v.leads_write top hbelow size content?
    simp only [file]
    split
    · exact hwritten
    · next hfailure =>
      refine ⟨hwritten.grows, fun hv => (hwritten.sourced hv).register ?_ (.inr hbelow)⟩
      exact isFile_write (by simpa using hfailure)

theorem leads_drain (v : Visit) (top folder : Path) (c : Container) : v.Leads top folder (v.drain c) := by
  unfold drain
  split
  · exact .of_eq rfl rfl
  · exact .of_eq rfl rfl

/-- Putting a container aside in a folder of its own. -/
theorem leads_aside (v : Visit) (top : Path) {c : Container} (htarget : folder <+: c.target) (name : String)
    (format : Format) (size : Nat) (content? : Option Content) : v.Leads top folder
      ({ v with disk := v.disk.fresh.2 }.write (c.nested v.disk.fresh.1 name format).path size content?) := by
  have hfresh : v.Leads top folder { v with disk := v.disk.fresh.2 } :=
    .of_grows ⟨fun _ => id, fun _ _ => rfl⟩ rfl
  exact hfresh.trans (leads_write _ top (htarget.trans (by simp [Container.nested])) size content?)

end Visit

mutual

/-- A visit to a container that is on the disk registers entries that are read from files. -/
theorem Content.leads_visit {top folder : Path} (mode : IndexMode) (c : Container) (content : Content) (v : Visit)
    (hfile : v.disk.isFile c.path = true) (hpath : c.path = top ∨ folder <+: c.path)
    (htarget : folder <+: c.target) : v.Leads top folder (content.visit mode c v) := by
  match content with
  | .plain _ | .contradictory .. => exact .of_eq rfl rfl
  | .packed format _ blocks =>
    rw [Content.visit]
    split
    · exact leads_visitBlocks mode c blocks v hfile hpath htarget
    · exact .of_eq rfl rfl

theorem leads_visitBlocks {top folder : Path} (mode : IndexMode) (c : Container) (blocks : List (List Member))
    (v : Visit) (hfile : v.disk.isFile c.path = true) (hpath : c.path = top ∨ folder <+: c.path)
    (htarget : folder <+: c.target) : v.Leads top folder (visitBlocks mode c blocks v) := by
  match blocks with
  | [] => exact .of_eq rfl rfl
  | block :: more =>
    have hblock : v.Leads top folder (visitMembers mode c block { v with failure := none }) :=
      (Visit.Leads.of_eq rfl rfl : v.Leads top folder { v with failure := none }).trans
        (leads_visitMembers mode c block _ hfile hpath htarget)
    have hthere := hblock.grows.isFile _ hfile
    rw [visitBlocks]
    split
    · refine (hblock.trans ?_).trans (leads_visitBlocks mode c more _ hthere hpath htarget)
      exact .of_eq rfl rfl
    · split
      · exact hblock
      · exact hblock.trans (leads_visitBlocks mode c more _ hthere hpath htarget)

theorem leads_visitMembers {top folder : Path} (mode : IndexMode) (c : Container) (members : List Member)
    (v : Visit) (hfile : v.disk.isFile c.path = true) (hpath : c.path = top ∨ folder <+: c.path)
    (htarget : folder <+: c.target) : v.Leads top folder (visitMembers mode c members v) := by
  match members with
  | [] => exact .of_eq rfl rfl
  | m :: rest =>
    have hm := m.leads_visit mode c v hfile hpath htarget
    rw [visitMembers]
    split
    · exact hm
    · exact hm.trans (leads_visitMembers mode c rest _ (hm.grows.isFile _ hfile) hpath htarget)

theorem Member.leads_visit {top folder : Path} (mode : IndexMode) (c : Container) (m : Member) (v : Visit)
    (hfile : v.disk.isFile c.path = true) (hpath : c.path = top ∨ folder <+: c.path)
    (htarget : folder <+: c.target) : v.Leads top folder (m.visit mode c v) := by
  match m with
  | .unreadable _ | .contradictory _ | .intact _ true .. | .damaged _ true _ => exact .of_eq rfl rfl
  | .damaged raw false size =>
    rw [Member.visit]
    split
    · exact .of_eq rfl rfl
    · next name _ =>
      split
      · exact (Visit.leads_file hfile hpath htarget).trans (Visit.leads_drain _ _ _ c)
      · next format hformat =>
        have haside := v.leads_aside top htarget name format size none
        simp only [Visit.enter_nested _ _ _ hformat]
        split
        · exact haside
        · exact haside.trans (.of_eq rfl rfl)
  | .intact raw false size content =>
    rw [Member.visit]
    split
    · exact .of_eq rfl rfl
    · next name _ =>
      split
      · exact Visit.leads_file hfile hpath htarget
      · next format hformat =>
        have haside := v.leads_aside top htarget name format size (some content)
        simp only [Visit.enter_nested _ _ _ hformat]
        split
        · exact haside
        · next hfailure =>
          split
          · exact haside.trans (.of_eq rfl rfl)
          · refine haside.trans (content.leads_visit mode _ _ ?_ (.inr ?_) ?_)
            · exact Visit.isFile_write (by simpa using hfailure)
            · exact htarget.trans (by simp [Container.nested])
            · exact htarget.trans (by simp [Container.nested])

end

/-- An archive that was indexed is read from files, the archive itself and those below the folder, and no other
file has changed. -/
theorem Index.sourced_of_build {mode : IndexMode} {source : String} {target : Path} {d d' : Disk} {i : Index}
    (h : Index.build mode source target d = (.ok i, d')) :
    i.Sourced d' (Path.ofText source) target ∧ d.Grows target d' := by
  unfold build at h
  split at h
  · cases h
  · next format _ =>
    split at h
    · cases h
    · next content hopen =>
      split at h
      · cases h
      · next d₀ hmade =>
        have hgrows := Disk.grows_makeFolders? hmade target
        have hfile : d₀.isFile (Path.ofText source) = true := hgrows.isFile _ (Disk.isFile_of_open? hopen)
        let v : Visit := ⟨d₀, .new source, none⟩
        have hleads : v.Leads (Path.ofText source) target (content.visit mode
            ⟨Path.ofText source, source, format, [(Path.fileName? source).getD ""], target, d.clock⟩ v) :=
          content.leads_visit mode _ v hfile (.inl rfl) (List.prefix_refl _)
        dsimp only at h
        split at h
        · cases h
        · cases h
          exact ⟨hleads.sourced (sourced_new source d₀ _ _), hgrows.trans hleads.grows⟩

end ModWeave
