import ModWeave.Proofs.Index.Build

/-!
Indexing and extracting agree. Whatever the mode, a visit that does not fail registers what the container
lists; and the bytes that are looked up in a container later are those that were written out, if names are
unambiguous, nothing has bytes that is stated to have none, and nested containers get fresh folders.
-/
namespace ModWeave

mutual

/-- What a container lists: all its files, as the members state them. -/
def Content.listings (chain : List String) : Content → List Listing
  | .packed _ _ blocks => listingsOfBlocks chain blocks
  | .plain _ | .contradictory .. => []

def listingsOfBlocks (chain : List String) : List (List Member) → List Listing
  | [] => []
  | block :: rest => listingsOf chain block ++ listingsOfBlocks chain rest

def listingsOf (chain : List String) : List Member → List Listing
  | [] => []
  | m :: rest => m.listings chain ++ listingsOf chain rest

/-- A damaged file is listed like any other, but a damaged container cannot be looked into. -/
def Member.listings (chain : List String) : Member → List Listing
  | .intact raw false size content =>
    match EntryName.normalize? raw with
    | none => []
    | some name =>
      match Format.ofName? name with
      | none => [(name, chain, size)]
      | some _ => content.listings (chain ++ [name])
  | .damaged raw false size =>
    match EntryName.normalize? raw with
    | none => []
    | some name =>
      match Format.ofName? name with
      | none => [(name, chain, size)]
      | some _ => []
  | _ => []

end

theorem listingsOf_append (chain : List String) (members rest : List Member) :
    listingsOf chain (members ++ rest) = listingsOf chain members ++ listingsOf chain rest := by
  induction members with
  | nil => rfl
  | cons m others ih => rw [List.cons_append, listingsOf, listingsOf, ih, List.append_assoc]

theorem listingsOfBlocks_eq (chain : List String) (blocks : List (List Member)) :
    listingsOfBlocks chain blocks = listingsOf chain blocks.flatten := by
  induction blocks with
  | nil => rfl
  | cons block rest ih => rw [listingsOfBlocks, List.flatten_cons, listingsOf_append, ih]

/-- Whether a file that is stated to have no bytes is undamaged and has none. -/
def Member.isHonest : Member → Bool
  | .intact raw false size content =>
    ((EntryName.normalize? raw).bind Format.ofName?).isSome || size != 0 || content.size == 0
  | .damaged _ false size => size != 0
  | _ => true

/-- Whether that is so of every file in a container, at any depth. -/
def Content.isHonest (content : Content) : Bool :=
  content.containers.all fun (_, blocks) => blocks.flatten.all Member.isHonest

namespace Visit

/-- A visit that has come on by registering entries with these listings. Files of their own lie below a
folder. -/
def Lists (v : Visit) (folder : Path) (listings : List Listing) (after : Visit) : Prop :=
  ∃ entries : List Entry, entries.map Entry.listing = listings ∧
    (∀ e ∈ entries, ∀ path, e.location = .extracted path → folder <+: path) ∧
    after.index = entries.foldl Index.register v.index

variable {v after : Visit} {listings listings' : List Listing} {folder folder' path : Path} {size : Nat}
  {content? : Option Content}

theorem Lists.of_index_eq (h : after.index = v.index) : v.Lists folder [] after :=
  ⟨[], rfl, List.forall_mem_nil _, h⟩

theorem Lists.trans {last : Visit} (h : v.Lists folder listings after)
    (h' : after.Lists folder listings' last) : v.Lists folder (listings ++ listings') last := by
  obtain ⟨entries, hlistings, hbelow, hindex⟩ := h
  obtain ⟨entries', hlistings', hbelow', hindex'⟩ := h'
  refine ⟨entries ++ entries', ?_, List.forall_mem_append.2 ⟨hbelow, hbelow'⟩, ?_⟩
  · rw [List.map_append, hlistings, hlistings']
  · rw [List.foldl_append, ← hindex, hindex']

theorem Lists.mono (h : v.Lists folder' listings after) (hfolder : folder <+: folder') :
    v.Lists folder listings after := by
  obtain ⟨entries, hlistings, hbelow, hindex⟩ := h
  exact ⟨entries, hlistings, fun e he path hpath => hfolder.trans (hbelow e he path hpath), hindex⟩

@[simp] theorem index_write (v : Visit) (path : Path) (size : Nat) (content? : Option Content) :
    (v.write path size content?).index = v.index := by
  unfold Visit.write
  dsimp only
  split
  · rfl
  · split <;> rfl

theorem lists_file {mode : IndexMode} {c : Container} {raw name : String}
    (h : (v.file mode c raw name size content?).failure = none) :
    v.Lists c.target [(name, c.chain, size)] (v.file mode c raw name size content?) := by
  cases mode with
  | index => exact ⟨[⟨name, c.chain, .packed c.path raw, size⟩], rfl, by simp, rfl⟩
  | extract =>
    refine ⟨[⟨name, c.chain, .extracted (c.target ++ EntryName.segments name), size⟩], rfl, by simp, ?_⟩
    simp only [Visit.file] at h ⊢
    split at h
    · next hfailure => simp [h] at hfailure
    · next hfailure => simp [hfailure]

/-- A damaged file cannot be written out, unless it is stated to have no bytes. -/
theorem failure_write_damaged (v : Visit) (path : Path) (hsize : size ≠ 0) :
    (v.write path size none).failure ≠ none := by
  unfold Visit.write
  rw [if_neg hsize]
  dsimp only
  split
  · exact Option.some_ne_none _
  · split
    · next hcontent => cases hcontent
    · exact Option.some_ne_none _
    · exact Option.some_ne_none _

theorem failure_file_damaged {c : Container} {raw name : String} (v : Visit) (hsize : size ≠ 0) :
    (v.file .extract c raw name size none).failure ≠ none := by
  have hfailed := failure_write_damaged v (c.target ++ EntryName.segments name) hsize
  simp only [Visit.file]
  split <;> exact hfailed

end Visit

theorem Member.listings_of_isFolder {m : Member} (h : m.isFolder = true) (chain : List String) :
    m.listings chain = [] := by
  unfold Member.listings
  split <;> first | rfl | cases h

theorem Member.listings_ofFile {raw name : String} (hname : EntryName.normalize? raw = some name)
    (hformat : Format.ofName? name = none) (size : Nat) (content? : Option Content) (chain : List String) :
    (Member.ofFile raw size content?).listings chain = [(name, chain, size)] := by
  cases content? <;> simp only [Member.ofFile, Member.listings, hname, hformat]

theorem PassAll.lists {mode : IndexMode} {c : Container} {members : List Member} {v w : Visit}
    (h : PassAll mode c members v w) : v.Lists c.target (listingsOf c.chain members) w := by
  induction h with
  | nil => exact .of_index_eq rfl
  | folder hfolder _ ih =>
    rw [listingsOf, Member.listings_of_isFolder hfolder, List.nil_append]
    exact ih
  | file hname hformat hends _ ih =>
    rw [listingsOf, Member.listings_ofFile hname hformat]
    exact (Visit.lists_file hends).trans ih
  | @container c raw name format size bytes blocks rest v u w hname hformat _ _ _ inside ih =>
    simp only [listingsOf, Member.listings, Content.listings, listingsOfBlocks_eq, hname, hformat]
    have haside : v.Lists c.target [] _ := .of_index_eq (Visit.index_write { v with disk := v.disk.fresh.2 }
      (c.nested v.disk.serial name format).path size (some (.packed format bytes blocks)))
    have hnested : c.target <+: (c.nested v.disk.serial name format).target := by
      simp [Container.nested]
    exact (haside.trans (inside.mono hnested)).trans ih

/-- A visit that does not fail registers what the container lists, in either mode. -/
theorem Content.lists_visit (mode : IndexMode) (c : Container) (content : Content) (v : Visit)
    (h : (content.visit mode c v).failure = none) :
    v.Lists c.target (content.listings c.chain) (content.visit mode c v) := by
  obtain ⟨bytes, blocks, hpacked, hpass⟩ := Content.passAll_visit h
  have hlists := hpass.lists
  rw [← listingsOfBlocks_eq] at hlists
  rwa [hpacked] at hlists ⊢

theorem PassAll.isUsable {mode : IndexMode} {c : Container} {members : List Member} {v w : Visit}
    (h : PassAll mode c members v w) (hmode : mode = .extract) (hhonest : ∀ m ∈ members, m.isHonest = true)
    (hinner : ∀ m ∈ members, ∀ x ∈ m.containers, ∀ n ∈ x.2.flatten, n.isHonest = true) :
    ∀ m ∈ members, m.IsUsable := by
  induction h with
  | nil => exact List.forall_mem_nil _
  | folder hfolder _ ih =>
    rw [List.forall_mem_cons] at hhonest hinner ⊢
    exact ⟨.folder hfolder, ih hhonest.2 hinner.2⟩
  | @file c raw name size content? rest v w hname hformat hends _ ih =>
    rw [List.forall_mem_cons] at hhonest hinner ⊢
    refine ⟨?_, ih hhonest.2 hinner.2⟩
    subst hmode
    cases content? with
    | none =>
      have hsize : size ≠ 0 := by simpa [Member.ofFile, Member.isHonest] using hhonest.1
      exact absurd hends (Visit.failure_file_damaged _ hsize)
    | some content =>
      refine .file hname hformat fun hsize => ?_
      simpa [Member.ofFile, Member.isHonest, hname, hformat, hsize] using hhonest.1
  | container hname hformat hsize _ _ inside ih =>
    rw [List.forall_mem_cons] at hhonest hinner ⊢
    obtain ⟨hmember, hrest⟩ := hinner
    simp only [Member.containers, Content.containers, containersOfBlocks_eq, hname, hformat, Option.bind_some,
      List.forall_mem_cons, List.forall_mem_flatMap] at hmember
    exact ⟨.container hname hformat hsize (inside hmember.1 hmember.2), ih hhonest.2 hrest⟩

namespace Index

/-- An archive that was indexed stands on the disk. -/
theorem open_of_build {mode : IndexMode} {source : String} {target : Path} {d d' : Disk} {i : Index}
    (h : build mode source target d = (.ok i, d')) : ∃ content, d.open? source = some content := by
  unfold build at h
  split at h
  · cases h
  · split at h
    · cases h
    · next content hopen => exact ⟨content, hopen⟩

/-- An archive that was indexed has been visited from end to end, behind its folder. -/
theorem visit_of_build {mode : IndexMode} {source : String} {target : Path} {d d' : Disk} {i : Index}
    {content : Content} (hopen : d.open? source = some content)
    (h : Index.build mode source target d = (.ok i, d')) :
    ∃ format d₀, Format.ofPath? source = some format ∧ d₀.serial = d.serial ∧
      content.visit mode (.top source format target d.clock) ⟨d₀, .new source, none⟩ = ⟨d', i, none⟩ := by
  cases hformat : Format.ofPath? source with
  | none => simp [Index.build, hformat] at h
  | some format =>
    cases hmade : d.makeFolders? target with
    | none => simp [Index.build, hformat, hopen, hmade] at h
    | some d₀ =>
      obtain ⟨d₁, hmade', hserial, -⟩ := Disk.makeFolders?_of_isOpen (Disk.isOpen_of_makeFolders? hmade)
      obtain rfl := Option.some.inj (hmade'.symm.trans hmade)
      refine ⟨format, d₁, rfl, hserial, ?_⟩
      rcases hv : content.visit mode (.top source format target d.clock) ⟨d₁, .new source, none⟩ with
        ⟨disk, index, failure⟩
      simp only [Container.top, rootName] at hv
      simp only [Index.build, hformat, hopen, hmade, hv] at h
      cases failure with
      | some e => cases h
      | none =>
        obtain ⟨hi, rfl⟩ := Prod.mk.inj h
        rw [Except.ok.inj hi]

/-- An index that has been built registers entries, and the files that were extracted lie below its folder. -/
theorem registers_of_build {mode : IndexMode} {source : String} {target : Path} {d d' : Disk} {i : Index}
    (h : build mode source target d = (.ok i, d')) : ∃ es, i.Registers es ∧
      ∀ e ∈ es, ∀ path, e.location = .extracted path → target <+: path := by
  obtain ⟨content, hopen⟩ := open_of_build h
  obtain ⟨format, d₀, -, -, hvisit⟩ := visit_of_build hopen h
  obtain ⟨es, -, hbelow, hindex⟩ := content.lists_visit mode (.top source format target d.clock)
    ⟨d₀, .new source, none⟩ (by rw [hvisit])
  rw [hvisit] at hindex
  obtain rfl : i = es.foldl Index.register (.new source) := hindex
  exact ⟨es, registers_foldl (registers_new source) es, hbelow⟩

end Index

/-- Whether every file below a folder is still there as it was. -/
def Disk.KeepsBelow (folder : Path) (d e : Disk) : Prop :=
  ∀ path content, folder <+: path → d.read? path = some content → e.read? path = some content

theorem Disk.KeepsBelow.refl (folder : Path) (d : Disk) : KeepsBelow folder d d := fun _ _ _ => id

namespace Index

variable {source : String} {content : Content} {format : Format} {target : Path} {clock : Nat → Nat}
  {d₀ d' e : Disk} {i : Index}

end Index

end ModWeave
