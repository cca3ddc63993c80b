import ModWeave.Archive.Pack
import ModWeave.Proofs.Index.Reading

/-!
Indexes of sound archives. An index shows the files of its archive, those in nested containers among
them, and of the files of one name the last. Containers around the archive only lengthen the chains.
-/
namespace ModWeave

/-- What an entry lists: the name, the containers down to the file and its size. -/
abbrev Listing := String × List String × Nat

def Entry.listing (e : Entry) : Listing := (e.name, e.provenance, e.size)

namespace Occurrence

def listing (f : Occurrence) : Listing := (f.name, f.chain, f.size)

def namedChain (f : Occurrence) : NamedChain := (f.name, f.chain)

end Occurrence

namespace Index

/-- An index that lists some files, where of those with one name the last counts. -/
structure Shows (i : Index) (source : String) (files : List Occurrence) : Prop where
  /-- The files are registered one after the other. -/
  fold : ∃ entries : List Entry, entries.map Entry.listing = files.map Occurrence.listing ∧
    i = entries.foldl Index.register (.new source)
  get? : ∀ name, (i.get? name).map Entry.listing =
    (files.findRev? (·.name = name)).map Occurrence.listing
  /-- Each file whose name is there before is told, with the chain that goes and the one that comes. -/
  duplicates : i.duplicates = repeatsAfter [] (files.map Occurrence.namedChain)
  findByFileName? : ∀ fileName, (i.findByFileName? fileName).map Entry.listing =
    (files.findRev? (·.fileName = Text.lowercase fileName)).map Occurrence.listing

/-- Whether the bytes of each entry are those of the last file of its name. -/
def Reads (i : Index) (d : Disk) (files : List Occurrence) : Prop :=
  ∀ name, (i.get? name).map (fun e => e.location.read d) =
    (files.findRev? (·.name = name)).map fun f => .ok f.bytes

theorem shows_foldl (source : String) {entries : List Entry} {files : List Occurrence}
    (h : entries.map Entry.listing = files.map Occurrence.listing) :
    (entries.foldl Index.register (.new source)).Shows source files := by
  have hregisters := registers_foldl (registers_new source) entries
  rw [List.nil_append] at hregisters
  have hlast (p : Listing → Bool) : (entries.findRev? (p ∘ Entry.listing)).map Entry.listing =
      (files.findRev? (p ∘ Occurrence.listing)).map Occurrence.listing := by
    rw [← findRev?_map, ← findRev?_map, h]
  refine ⟨⟨entries, h, rfl⟩, fun name => ?_, ?_, fun fileName => ?_⟩
  · rw [hregisters.get?]
    exact hlast (·.1 = name)
  · rw [hregisters.duplicates]
    have hchains := congrArg (List.map fun x : Listing => (x.1, x.2.1)) h
    rw [List.map_map, List.map_map] at hchains
    exact congrArg (repeatsAfter []) hchains
  · rw [hregisters.findByFileName?]
    unfold Entry.fileName Occurrence.fileName
    generalize Text.lowercase = lower
    exact hlast fun x => lower (EntryName.base x.1) = lower fileName

end Index

/-- The name of an archive, which is the outermost of its containers. -/
def rootName (source : String) : String := (Path.fileName? source).getD ""

/-- An archive as the container that a visit starts with. -/
def Container.top (source : String) (format : Format) (target : Path) (clock : Nat → Nat) : Container :=
  ⟨Path.ofText source, source, format, [rootName source], target, clock⟩

/-- What is written when an archive is indexed: the containers in it, and its files if they are
extracted. -/
def Index.writes (mode : IndexMode) (source : String) (format : Format) (target : Path) (d : Disk)
    (content : Content) : List Path :=
  written (content.plan mode (.top source format target d.clock) d.serial)

/-- Whether an archive can be indexed: it stands on the disk and is sound, and there is room for what is
written, which does not go over the archive itself. -/
structure Indexable (mode : IndexMode) (source : String) (format : Format) (target : Path) (d : Disk)
    (content : Content) : Prop where
  announced : Format.ofPath? source = some format
  opens : d.open? source = some content
  sound : content.IsSound format
  way : d.IsOpen target
  room : d.Hosts (Index.writes mode source format target d content)
  apart : Path.ofText source ∉ Index.writes mode source format target d content

namespace Indexable

variable {mode : IndexMode} {source : String} {format : Format} {target : Path} {d : Disk}
  {content : Content}

theorem read? (h : Indexable mode source format target d content) :
    d.read? (Path.ofText source) = some content := by
  have hopen := h.opens
  simp only [Disk.open?, Disk.resolve?] at hopen
  split at hopen
  · exact hopen
  · cases hopen

theorem exists_build (h : Indexable mode source format target d content) :
    ∃ v : Visit, Index.build mode source target d = (.ok v.index, v.disk) ∧
      ∃ d₁, v.Has d₁ (.new source) (content.plan mode (.top source format target d.clock) d.serial) ∧
        d₁.read? (Path.ofText source) = some content ∧
        d₁.Hosts (Index.writes mode source format target d content) := by
  obtain ⟨d₁, hmade, hserial, hrefuses, hitem⟩ := Disk.makeFolders?_of_isOpen h.way
  have hroom : d₁.Hosts (Index.writes mode source format target d content) := by
    refine h.room.makeFolders? (fun p hp => ?_) hrefuses hitem
    obtain ⟨a, ha, hpath⟩ := List.mem_filterMap.1 hp
    obtain ⟨-, name, -, rfl⟩ | ⟨k, name, rest, -, -, rfl⟩ :=
      content.goesBelow mode (.top source format target d.clock) d.serial a ha p hpath
    · exact ⟨List.prefix_append _ _, by simp [EntryName.segments_ne_nil, Container.top]⟩
    · exact ⟨List.prefix_append _ _, by simp [Container.top]⟩
  have hv : (content.visit mode (.top source format target d.clock) ⟨d₁, .new source, none⟩).Has d₁
      (.new source) (content.plan mode (.top source format target d.clock) d₁.serial) :=
    Content.IsSound.visit h.sound (by rw [hserial]; exact hroom) _
  rw [hserial] at hv
  refine ⟨_, ?_, d₁, hv, ?_, hroom⟩
  · have hfailure := hv.failure
    simp only [Container.top, rootName] at hfailure
    simp only [Index.build, h.announced, h.opens, hmade, hfailure, Container.top, rootName]
  · have hread := h.read?
    rw [Disk.read?_eq_some_iff] at hread ⊢
    rw [hitem, if_neg]
    · exact hread
    · exact fun hway => (h.way _ hway).ne_file content hread

end Indexable

/-- What a visit has registered by plan shows the files of the container. -/
theorem Visit.Has.shows {mode : IndexMode} {c : Container} {n : Nat} {content : Content} {d : Disk}
    {source : String} {v : Visit} (h : v.Has d (.new source) (content.plan mode c n)) :
    v.index.Shows source (content.files c.chain) := by
  rw [h.index]
  refine Index.shows_foldl source ?_
  rw [← Content.registers_plan mode c n content, List.map_filterMap, List.map_filterMap,
    List.map_filterMap]
  congr 1
  funext a
  rw [Act.entry?]
  cases a.registers <;> rfl

theorem Visit.Has.reads {mode : IndexMode} {c : Container} {n : Nat} {content : Content} {d : Disk}
    {source : String} {v : Visit} (h : v.Has d (.new source) (content.plan mode c n)) {d' : Disk}
    (hread : LastRead d' (content.plan mode c n)) : v.index.Reads d' (content.files c.chain) := by
  intro name
  have hentries : (content.plan mode c n).filterMap Act.entry? =
      ((content.plan mode c n).filterMap Act.registers).map fun r => r.1.entry r.2 := by
    rw [List.map_filterMap]
    rfl
  rw [h.index, (Index.registers_foldl (Index.registers_new source) _).get?, List.nil_append, hentries,
    findRev?_map, ← Content.registers_plan mode c n content, findRev?_map]
  let named (r : Occurrence × Location) : Bool := r.1.name = name
  change Option.map _ (Option.map _ (List.findRev? named _)) =
    Option.map _ (Option.map _ (List.findRev? named _))
  obtain hlast | ⟨⟨f, location⟩, hlast⟩ :=
    (((content.plan mode c n).filterMap Act.registers).findRev? named).eq_none_or_eq_some
  · rw [hlast]
    rfl
  · rw [hlast]
    exact congrArg some (hread.read hlast)

/-- What is built of an archive that can be indexed: an index of its files. No container is among them, and each reads
as the last file of its name, where names are unambiguous in what stays packed and where nested containers get fresh
folders beside what is written out. -/
theorem Indexable.exists_index {mode : IndexMode} {source : String} {format : Format} {target : Path} {d : Disk}
    {content : Content} (h : Indexable mode source format target d content) :
    ∃ i d', Index.build mode source target d = (.ok i, d') ∧
      i.Shows source (content.files [rootName source]) ∧
      (∀ name, Format.isContainer name = true → i.get? name = none) ∧
      ((mode = .index → content.isUnambiguous = true) →
        (mode = .extract → content.HasFreshFolders d.clock d.serial) →
        i.Reads d' (content.files [rootName source])) := by
  obtain ⟨v, hbuild, d₁, hv, hread, hroom⟩ := h.exists_build
  have hshows : v.index.Shows source (content.files [rootName source]) := hv.shows
  refine ⟨v.index, v.disk, hbuild, hshows, fun name hname => ?_, fun hclear hfresh name => ?_⟩
  · have hget := hshows.get? name
    cases hlast : (content.files [rootName source]).findRev? (·.name = name) with
    | none => simpa only [hlast, Option.map_none, Option.map_eq_none_iff] using hget
    | some f =>
      obtain rfl : f.name = name := by simpa using (findRev?_eq_some_iff.1 hlast).1
      rw [h.sound.isContainer_of_mem (mem_of_findRev?_eq_some hlast)] at hname
      cases hname
  · refine hv.reads ?_ name
    have hkeepsOff : (content.plan mode (.top source format target d.clock) d.serial).Pairwise Act.KeepsOff :=
      Content.HasFreshFolders.keepsOff hfresh
    cases mode with
    | index =>
      refine h.sound.isUsable.lastRead (hclear rfl) (Path.ofPath?_text_ofText h.announced) ?_ ?_
      · refine hv.disk.read?_of_notMem ?_ hread ?_
        · rw [map_fst_writes]
          exact hroom
        · rw [map_fst_writes]
          exact h.apart
      · exact fun a ha hnone path content => read?_of_putAside hv.disk hkeepsOff ha hnone
    | extract => exact lastRead_of_delivers hv.disk hkeepsOff (h.sound.isUsable.delivers _)

/-- A disk with nothing on it but a file in the working folder. -/
def Disk.single (name : String) (content : Content) : Disk :=
  { Disk.empty with items := (∅ : Std.TreeMap Path Item).insert [name] (.file content) }

/-- A file as a container holds it. -/
def Member.ofText (name text : String) : Member := .intact name false (Content.ofText text).size (.ofText text)

end ModWeave
