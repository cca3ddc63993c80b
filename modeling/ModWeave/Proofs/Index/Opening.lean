import ModWeave.Proofs.Index.Agreement

/-!
Opening containers in containers. A container in an archive is told by its name, and opened from a copy whose own name
is looked at again. The two announce one format; so behind an archive that could be opened no format is unknown, and
what stays packed is read from containers of the formats that their names announce.
-/
namespace ModWeave

/-- A container that is opened with the format that both its path and its name in the chain announce. -/
structure Container.IsAnnounced (c : Container) : Prop where
  path : Format.ofPath? c.path.text = some c.format
  shown : Format.ofPath? c.shown = some c.format
  chain : ∃ outer name, c.chain = outer ++ [name] ∧ c.format.Announces name

/-- A failure that is not about an unknown format. A format that it tells is the one that the path announces. -/
def ArchiveError.IsAnnounced : ArchiveError → Prop
  | .unsupportedFormat _ => False
  | .malformed shown (.notFormat format) => Format.ofPath? shown = some format
  | _ => True

/-- An entry that, where it stays packed, is in a container whose path announces the format that its name does. -/
def Entry.IsAnnounced (e : Entry) : Prop :=
  ∀ container raw, e.location = .packed container raw → ∃ outer name format,
    e.provenance = outer ++ [name] ∧ format.Announces name ∧ Format.ofPath? container.text = some format

/-- Whether a member that is named as a container is one of the format that its name announces, with members that are
what they are named as. -/
inductive Member.IsAsNamed : Member → Prop
  | folder {m : Member} (hfolder : m.isFolder = true) : IsAsNamed m
  | file {m : Member} {name : String} (hname : EntryName.normalize? m.name = some name)
      (hformat : ∀ format : Format, ¬ format.Announces name) : IsAsNamed m
  | container {raw name : String} {format : Format} {size : Nat} {bytes : ByteArray}
      {blocks : List (List Member)} (hname : EntryName.normalize? raw = some name) (hformat : format.Announces name)
      (hmembers : ∀ m ∈ blocks.flatten, m.IsAsNamed) :
      IsAsNamed (.intact raw false size (.packed format bytes blocks))

/-- A container of the format with members that are what they are named as. -/
inductive Content.IsAsNamed (format : Format) : Content → Prop
  | packed {bytes : ByteArray} {blocks : List (List Member)} (hmembers : ∀ m ∈ blocks.flatten, m.IsAsNamed) :
    IsAsNamed format (.packed format bytes blocks)

theorem Container.isAnnounced_top {source : String} {format : Format} (h : Format.ofPath? source = some format)
    (target : Path) (clock : Nat → Nat) : (top source format target clock).IsAnnounced where
  path := Path.ofPath?_text_ofText h
  shown := h
  chain := by
    obtain ⟨name, hname, hformat⟩ := Option.bind_eq_some_iff.1 h
    exact ⟨[], name, by simp [top, rootName, hname], Format.ofName?_eq_some_iff.1 hformat⟩

theorem Container.isAnnounced_nested (c : Container) (number : Nat) {name : String} {format : Format}
    (h : Format.ofName? name = some format) : (c.nested number name format).IsAnnounced where
  path := c.ofPath?_nested number h
  shown := c.ofPath?_nested number h
  chain := ⟨c.chain, name, rfl, Format.ofName?_eq_some_iff.1 h⟩

/-- Bytes in a container whose path announces a format are never missed for an unknown one. -/
theorem Entry.IsAnnounced.read {e : Entry} (h : e.IsAnnounced) (d : Disk) (path : String) :
    e.location.read d ≠ .error (.unsupportedFormat path) := by
  cases hlocation : e.location with
  | extracted file =>
    unfold Location.read
    dsimp only
    split <;> simp
  | packed container raw =>
    obtain ⟨outer, name, format, -, -, hpath⟩ := h container raw hlocation
    simp only [Location.read, Disk.readMember, hpath]
    split
    · split
      · split
        · next m _ =>
          cases m with
          | unreadable name =>
            simp only [Member.read]
            split <;> simp
          | _ => simp [Member.read]
        · simp
      · simp
    · split <;> simp
    · simp
    · split <;> simp

namespace Visit

/-- A visit that has registered and failed as names announce. -/
structure IsAnnounced (v : Visit) : Prop where
  entries : ∀ name e, v.index.get? name = some e → e.IsAnnounced
  failure : ∀ e, v.failure = some e → e.IsAnnounced

variable {v : Visit} {c : Container}

theorem isAnnounced_new (source : String) (d : Disk) : IsAnnounced ⟨d, .new source, none⟩ :=
  ⟨by simp [Index.get?, Index.new], by simp⟩

theorem failure_write (v : Visit) (path : Path) (size : Nat) (content? : Option Content) :
    (v.write path size content?).failure = v.failure ∨ (v.write path size content?).failure = some .io := by
  unfold Visit.write
  dsimp only
  split
  · exact .inr rfl
  · split
    · exact .inl rfl
    · exact .inr rfl
    · exact .inr rfl

namespace IsAnnounced

theorem fail (h : v.IsAnnounced) {e : ArchiveError} (he : e.IsAnnounced) : (v.fail e).IsAnnounced :=
  ⟨h.entries, fun _ he' => Option.some.inj he' ▸ he⟩

theorem write (h : v.IsAnnounced) (path : Path) (size : Nat) (content? : Option Content) :
    (v.write path size content?).IsAnnounced where
  entries := by
    rw [index_write]
    exact h.entries
  failure e he := by
    obtain hsame | hio := failure_write v path size content?
    · exact h.failure e (hsame ▸ he)
    · obtain rfl : ArchiveError.io = e := Option.some.inj (hio ▸ he)
      trivial

theorem register (h : v.IsAnnounced) {e : Entry} (he : e.IsAnnounced) :
    IsAnnounced { v with index := v.index.register e } where
  entries name f hf := by
    rw [Index.get?_register] at hf
    split at hf
    · exact Option.some.inj hf ▸ he
    · exact h.entries name f hf
  failure := h.failure

theorem file (h : v.IsAnnounced) (hc : c.IsAnnounced) (mode : IndexMode) (raw name : String) (size : Nat)
    (content? : Option Content) : (v.file mode c raw name size content?).IsAnnounced := by
  cases mode with
  | index =>
    refine h.register fun container raw' hlocation => ?_
    obtain ⟨rfl, -⟩ := Location.packed.inj hlocation
    obtain ⟨outer, inner, hchain, hinner⟩ := hc.chain
    exact ⟨outer, inner, c.format, hchain, hinner, hc.path⟩
  | extract =>
    have hwritten := h.write (c.target ++ EntryName.segments name) size content?
    simp only [Visit.file]
    split
    · exact hwritten
    · exact hwritten.register fun container raw' hlocation => by cases hlocation

theorem drain (h : v.IsAnnounced) (c : Container) : (v.drain c).IsAnnounced := by
  unfold Visit.drain
  split
  · exact h.fail trivial
  · exact h

/-- A container in a container is put aside and opened as its name announces. -/
theorem enter (h : v.IsAnnounced) (c : Container) (number : Nat) {name : String} {format : Format}
    (hformat : Format.ofName? name = some format) (size : Nat) (content? : Option Content) {d : Disk}
    {visit : Container → Visit → Visit}
    (hvisit : ∀ inner aside, inner.IsAnnounced → aside.IsAnnounced → (visit inner aside).IsAnnounced) :
    (({ v with disk := d }.write (c.nested number name format).path size content?).enter
      (c.nested number name format) visit).IsAnnounced := by
  have haside : IsAnnounced ({ v with disk := d }.write (c.nested number name format).path size content?) :=
    write (v := { v with disk := d }) ⟨h.entries, h.failure⟩ _ size content?
  rw [enter_nested _ _ _ hformat]
  split
  · exact haside
  · exact hvisit _ _ (c.isAnnounced_nested number hformat) haside

end IsAnnounced

end Visit

mutual

/-- What is visited in a container that is opened as announced is opened as announced, at any depth. -/
theorem Content.isAnnounced_visit (mode : IndexMode) {c : Container} (hc : c.IsAnnounced) (content : Content)
    {v : Visit} (hv : v.IsAnnounced) : (content.visit mode c v).IsAnnounced := by
  match content with
  | .plain _ => exact hv.fail hc.shown
  | .contradictory format _ =>
    -- A contradiction tells no format; one in another format is just not of this one.
    refine hv.fail ?_
    split
    · trivial
    · exact hc.shown
  | .packed format _ blocks =>
    rw [Content.visit]
    split
    · exact isAnnounced_visitBlocks mode hc blocks hv
    · exact hv.fail hc.shown

theorem isAnnounced_visitBlocks (mode : IndexMode) {c : Container} (hc : c.IsAnnounced) (blocks : List (List Member))
    {v : Visit} (hv : v.IsAnnounced) : (visitBlocks mode c blocks v).IsAnnounced := by
  match blocks with
  | [] => exact hv
  | block :: more =>
    have hblock : (visitMembers mode c block { v with failure := none }).IsAnnounced :=
      isAnnounced_visitMembers mode hc block ⟨hv.entries, by simp⟩
    rw [visitBlocks]
    split
    · exact isAnnounced_visitBlocks mode hc more ⟨hblock.entries, hv.failure⟩
    · split
      · exact hblock
      · exact isAnnounced_visitBlocks mode hc more hblock

theorem isAnnounced_visitMembers (mode : IndexMode) {c : Container} (hc : c.IsAnnounced) (members : List Member)
    {v : Visit} (hv : v.IsAnnounced) : (visitMembers mode c members v).IsAnnounced := by
  match members with
  | [] => exact hv
  | m :: rest =>
    have hm := m.isAnnounced_visit mode hc hv
    rw [visitMembers]
    split
    · exact hm
    · exact isAnnounced_visitMembers mode hc rest hm

theorem Member.isAnnounced_visit (mode : IndexMode) {c : Container} (hc : c.IsAnnounced) (m : Member) {v : Visit}
    (hv : v.IsAnnounced) : (m.visit mode c v).IsAnnounced := by
  match m with
  | .unreadable _ | .contradictory _ => exact hv.fail trivial
  | .intact _ true .. | .damaged _ true _ => exact hv
  | .damaged raw false size =>
    rw [Member.visit]
    split
    · exact hv.fail trivial
    · split
      · exact (hv.file hc mode raw _ size none).drain c
      · next format hformat => exact hv.enter c _ hformat size none fun _ _ hinner haside => haside.fail hinner.shown
  | .intact raw false size content =>
    rw [Member.visit]
    split
    · exact hv.fail trivial
    · split
      · exact hv.file hc mode raw _ size (some content)
      · next format hformat =>
        refine hv.enter c _ hformat size (some content) fun inner aside hinner haside => ?_
        split
        · exact haside.fail hinner.shown
        · exact content.isAnnounced_visit mode hinner haside

end

theorem PassAll.isAsNamed {mode : IndexMode} {c : Container} {members : List Member} {v w : Visit}
    (h : PassAll mode c members v w) : ∀ m ∈ members, m.IsAsNamed := by
  induction h with
  | nil => exact List.forall_mem_nil _
  | folder hfolder _ ih => exact List.forall_mem_cons.2 ⟨.folder hfolder, ih⟩
  | @file _ raw name size content? _ _ _ hname hformat _ _ ih =>
    have hsame : EntryName.normalize? (Member.ofFile raw size content?).name = some name := by
      cases content? <;> exact hname
    exact List.forall_mem_cons.2
      ⟨.file hsame fun format h => by simp [Format.ofName?_eq_some_iff.2 h] at hformat, ih⟩
  | container hname hformat _ _ _ inside ih =>
    exact List.forall_mem_cons.2 ⟨.container hname (Format.ofName?_eq_some_iff.1 hformat) inside, ih⟩

/-- What is visited without failure is a container of the format that it was opened with. -/
theorem Content.isAsNamed_of_visit {mode : IndexMode} {c : Container} {content : Content} {v : Visit}
    (h : (content.visit mode c v).failure = none) : content.IsAsNamed c.format := by
  obtain ⟨bytes, blocks, rfl, hpass⟩ := Content.passAll_visit h
  exact .packed hpass.isAsNamed

namespace Index

variable {mode : IndexMode} {source : String} {target : Path} {d : Disk}

/-- Only an archive itself is refused for an unknown format. -/
theorem isAnnounced_of_build {e : ArchiveError} (h : (build mode source target d).1 = .error e) :
    Format.ofPath? source = none ∧ e = .unsupportedFormat source ∨ e.IsAnnounced := by
  unfold build at h
  split at h
  · next hformat => exact .inl ⟨hformat, (Except.error.inj h).symm⟩
  · next format hformat =>
    right
    split at h
    · exact Except.error.inj h ▸ trivial
    · next content _ =>
      split at h
      · exact Except.error.inj h ▸ trivial
      · next d₀ _ =>
        have hvisit := content.isAnnounced_visit mode (Container.isAnnounced_top hformat target d.clock)
          (Visit.isAnnounced_new source d₀)
        dsimp only at h
        split at h
        · next e' hfailure => exact Except.error.inj h ▸ hvisit.failure e' hfailure
        · cases h

theorem isAnnounced_of_get? {d' : Disk} {i : Index} (h : build mode source target d = (.ok i, d')) {name : String}
    {e : Entry} (he : i.get? name = some e) : e.IsAnnounced := by
  obtain ⟨content, hopen⟩ := open_of_build h
  obtain ⟨format, d₀, hformat, -, hvisit⟩ := visit_of_build hopen h
  have hannounced := content.isAnnounced_visit mode (Container.isAnnounced_top hformat target d.clock)
    (Visit.isAnnounced_new source d₀)
  rw [hvisit] at hannounced
  exact hannounced.entries name e he

/-- **A container in a container is opened as its name announces.** The copy that it is put aside in has a name of its
own, which announces the same format, whatever characters and dots stand in front of the extension. So an unknown format
is only ever told of the archive itself, a container that is not of its format is refused for the one that its path
announces, and whatever is in an index comes from containers that are what they are named as. -/
theorem build_opens_as_announced (mode : IndexMode) (source : String) (target : Path) (d : Disk) :
    (∀ (raw name : String) (format : Format), EntryName.normalize? raw = some name → format.Announces name →
      ∀ (c : Container) (v : Visit) (size : Nat) (content : Content),
        let copy := c.nested v.disk.serial name format
        let after := { v with disk := v.disk.fresh.2 }.write copy.path size (some content)
        Format.ofName? name = some format ∧
        Path.fileName? copy.path.text = some (EntryName.sanitize (EntryName.base name)) ∧
        Format.ofPath? copy.path.text = some format ∧
        (after.failure = none → after.disk.read? copy.path = some (if size = 0 then .empty else content)) ∧
        (Member.intact raw false size content).visit mode c v =
          if after.failure.isSome then after
          else if size = 0 then after.fail (.malformed copy.shown (.notFormat format))
          else content.visit mode copy after) ∧
    (∀ path, (build mode source target d).1 = .error (.unsupportedFormat path) ↔
      Format.ofPath? source = none ∧ path = source) ∧
    (∀ shown format, (build mode source target d).1 = .error (.malformed shown (.notFormat format)) →
      Format.ofPath? shown = some format) ∧
    ∀ i d', build mode source target d = (.ok i, d') →
      (∃ format content, Format.ofPath? source = some format ∧ d.open? source = some content ∧
        content.IsAsNamed format) ∧
      ∀ name e, i.get? name = some e →
        e.IsAnnounced ∧ ∀ later path, e.location.read later ≠ .error (.unsupportedFormat path) := by
  refine ⟨fun raw name format hname hannounces c v size content => ?_, fun path => ⟨fun h => ?_, ?_⟩,
    fun shown format h => ?_, fun i d' h => ⟨?_, fun name e he => ?_⟩⟩
  · have hformat := Format.ofName?_eq_some_iff.2 hannounces
    refine ⟨hformat, c.fileName?_nested _ hformat, c.ofPath?_nested _ hformat, fun h => ?_,
      Member.visit_announced size content hname hformat⟩
    rw [Visit.read?_write h]
    split <;> rfl
  · obtain ⟨hnone, he⟩ | hannounced := isAnnounced_of_build h
    · exact ⟨hnone, ArchiveError.unsupportedFormat.inj he⟩
    · exact hannounced.elim
  · rintro ⟨hnone, rfl⟩
    simp [build, hnone]
  · obtain ⟨-, he⟩ | hannounced := isAnnounced_of_build h
    · cases he
    · exact hannounced
  · obtain ⟨content, hopen⟩ := open_of_build h
    obtain ⟨format, d₀, hformat, -, hvisit⟩ := visit_of_build hopen h
    have hnamed := Content.isAsNamed_of_visit (congrArg Visit.failure hvisit)
    exact ⟨format, content, hformat, hopen, hnamed⟩
  · have hannounced := isAnnounced_of_get? h he
    exact ⟨hannounced, hannounced.read⟩

set_option maxRecDepth 10000 in
/-- A name with a container's extension in front of a slash, and with a letter that is not plain, a blank and another
dot in front of its own; and zip bytes that are named as a 7z container. -/
theorem build_opens_odd_names_as_announced :
    let archive := Content.pack .zip [("x.7z\\é .b.PaK", .pack .zip [("a.txt", .ofText "1")])]
    let misnamed := Content.pack .zip [("in.7z", .pack .zip [("a.txt", .ofText "1")])]
    let copy := (Container.top "m.zip" .zip ["dest"] Disk.empty.clock).nested 0 "x.7z/é .b.PaK" .zip
    EntryName.normalize? "x.7z\\é .b.PaK" = some "x.7z/é .b.PaK" ∧ Format.zip.Announces "x.7z/é .b.PaK" ∧
    Path.fileName? copy.path.text = some "__.b.PaK" ∧ Format.ofPath? copy.path.text = some .zip ∧
    (∃ i d' e, build .index "m.zip" ["dest"] (.single "m.zip" archive) = (.ok i, d') ∧ archive.IsAsNamed .zip ∧
      i.get? "a.txt" = some e ∧ e.provenance = ["m.zip", "x.7z/é .b.PaK"] ∧ e.IsAnnounced ∧
      ∀ later path, e.location.read later ≠ .error (.unsupportedFormat path)) ∧
    ∃ shown, (build .index "m.zip" ["dest"] (.single "m.zip" misnamed)).1 =
      .error (.malformed shown (.notFormat .sevenZ)) ∧ Format.ofPath? shown = some .sevenZ := by
  have hname : EntryName.normalize? "x.7z\\é .b.PaK" = some "x.7z/é .b.PaK" := by decide
  have hannounces : Format.zip.Announces "x.7z/é .b.PaK" :=
    ⟨"x.7z/é .b".toList, "PaK".toList, by decide, by decide⟩
  have hbase : EntryName.sanitize (EntryName.base "x.7z/é .b.PaK") = "__.b.PaK" := by decide
  obtain ⟨i, d', e, hbuild, he, hchain⟩ :
      let archive := Content.pack .zip [("x.7z\\é .b.PaK", .pack .zip [("a.txt", .ofText "1")])]
      ∃ i d' e, build .index "m.zip" ["dest"] (.single "m.zip" archive) = (.ok i, d') ∧ i.get? "a.txt" = some e ∧
        e.provenance = ["m.zip", "x.7z/é .b.PaK"] := ⟨_, _, _, rfl, rfl, rfl⟩
  obtain ⟨shown, hrefused⟩ :
      let misnamed := Content.pack .zip [("in.7z", .pack .zip [("a.txt", .ofText "1")])]
      ∃ shown, (build .index "m.zip" ["dest"] (.single "m.zip" misnamed)).1 =
        .error (.malformed shown (.notFormat .sevenZ)) := ⟨_, rfl⟩
  intro archive misnamed copy
  obtain ⟨hnames, -, -, hbuilt⟩ := build_opens_as_announced .index "m.zip" ["dest"] (.single "m.zip" archive)
  obtain ⟨-, hfile, hpath, -, -⟩ := hnames _ _ _ hname hannounces (.top "m.zip" .zip ["dest"] Disk.empty.clock)
    ⟨.single "m.zip" archive, .new "m.zip", none⟩ 1 .empty
  obtain ⟨⟨format, content, hformat, hopen, hnamed⟩, hentries⟩ := hbuilt i d' hbuild
  have hzip : Format.ofPath? "m.zip" = some .zip := by decide
  have harchive : (Disk.single "m.zip" archive).open? "m.zip" = some archive := rfl
  rw [hzip] at hformat
  rw [harchive] at hopen
  cases hformat
  cases hopen
  exact ⟨hname, hannounces, hbase ▸ hfile, hpath, ⟨i, d', e, hbuild, hnamed, he, hchain, hentries _ e he⟩, shown,
    hrefused, (build_opens_as_announced .index "m.zip" ["dest"] _).2.2.1 shown _ hrefused⟩

end Index

end ModWeave
