import ModWeave.Disk.Pack
import ModWeave.Proofs.Index.Build

/-!
Packing a folder and indexing what comes out. The names that lead to a file are joined to the name of a
member, and an index takes that apart again into the same names; so it knows exactly the files of the folder.
-/
namespace ModWeave

/-- Whether a folder holds what a container can hold as it is: names that a file can have, none with a
backslash, and no container among the files. -/
structure Disk.IsStaging (d : Disk) (folder : Path) : Prop where
  isFolder : d.isFolder folder = true
  names : ∀ f ∈ d.filesBelow folder, ∀ name ∈ f.1,
    Path.LeadsDown name ∧ Path.hasZero name = false ∧ '\\' ∉ name.toList
  /-- No file stands in another. -/
  apart : ∀ f ∈ d.filesBelow folder, ∀ g ∈ d.filesBelow folder, f.1 <+: g.1 → f.1 = g.1
  noContainer : ∀ f ∈ d.filesBelow folder, ¬Format.EndsAsContainer f.1.text

/-- Whether a file can be put where a text leads. -/
structure Disk.Takes (d : Disk) (output : String) : Prop where
  way : ∃ d₁, d.makeFoldersTo? output = some d₁ ∧ d₁.accepts (Path.ofText output) = true ∧
    d₁.isFolder (Path.ofText output) = false
  noFolder : Path.leadsToFolder output = false

namespace Disk

variable {d d' : Disk} {folder : Path} {output : String}

/-- A file that is put where a text leads is found there. -/
theorem Takes.exists_write? (h : d.Takes output) (content : Content) :
    ∃ d₁ d', d.makeFoldersTo? output = some d₁ ∧ d₁.write? (Path.ofText output) content = some d' ∧
      d'.open? output = some content := by
  obtain ⟨d₁, hway, haccepts, hfolder⟩ := h.way
  have hwrite : d₁.write? (Path.ofText output) content =
      some { d₁ with items := d₁.items.insert (Path.ofText output) (.file content) } := by
    simp [write?, hfolder, haccepts]
  refine ⟨d₁, _, hway, hwrite, ?_⟩
  unfold makeFoldersTo? at hway
  split at hway
  · next hshort =>
    have hread := read?_write? hwrite (Path.ofText output)
    rw [if_pos rfl] at hread
    have hfolders : hasFoldersTo { d₁ with items := d₁.items.insert (Path.ofText output) (.file content) }
        output = true :=
      List.all_eq_true.2 fun q hq => isFolder_insert hfolder ((isFolder_foldlM hway).2 q hq)
    simp only [open?, resolve?, hshort, hfolders, h.noFolder]
    exact hread
  · cases hway

end Disk

namespace Content

variable {format : Format} {files : List NamedContent}

/-- A file whose name ends in no slash is a member as it is. -/
theorem toMember_eq {name : String} {content : Content}
    (h : ∀ c, name.toList.getLast? = some c → c ≠ '/' ∧ c ≠ '\\') :
    toMember format (name, content) = .intact name false content.size content := by
  cases format with
  | zip =>
    have hname : Zip.isFolderName name = false := by
      unfold Zip.isFolderName
      split
      · next c hc => simp [h c hc]
      · rfl
    simp [toMember, hname]
  | sevenZ =>
    rw [toMember, if_neg fun hlast => (h '/' hlast).1 rfl]

/-- However members are parted into blocks, there are no others. -/
theorem perm_blocksOf (format : Format) (members : List Member) :
    (blocksOf format members).flatten.Perm members := by
  cases format with
  | zip => simp [blocksOf]
  | sevenZ =>
    have hsingle (ms : List Member) : (ms.map ([·])).flatten = ms := by simp [← List.flatMap_def]
    have hhalves := List.filter_append_perm (fun m : Member => decide (m.size ≠ 0)) members
    simpa [blocksOf, hsingle] using hhalves

theorem sublist_of_mem_blocksOf {members block : List Member} (h : block ∈ blocksOf format members) :
    block.Sublist members := by
  cases format with
  | zip =>
    obtain rfl := List.mem_singleton.1 h
    exact .refl _
  | sevenZ =>
    obtain h | h := List.mem_append.1 h
    · obtain ⟨m, hm, rfl⟩ := List.mem_map.1 h
      exact List.singleton_sublist.2 (List.mem_filter.1 hm).1
    · obtain rfl := List.mem_singleton.1 h
      exact List.filter_sublist

theorem pack_eq (h : ∀ f ∈ files, Path.hasZero f.1 = false) :
    ∃ bytes, pack format files = .packed format bytes (blocksOf format (files.map (toMember format))) := by
  cases format with
  | zip => exact ⟨_, rfl⟩
  | sevenZ =>
    refine ⟨_, if_neg ?_⟩
    rw [List.any_eq_true]
    rintro ⟨f, hf, hzero⟩
    rw [h f hf] at hzero
    cases hzero

end Content

/-- A member that is a file as it is. -/
def NamedContent.member (f : NamedContent) : Member := .intact f.1 false f.2.size f.2

/-- Whether an index knows a file under the name that it has. -/
def NamedContent.IsPlain (f : NamedContent) : Prop :=
  EntryName.normalize? f.1 = some f.1 ∧ Format.ofName? f.1 = none

namespace NamedContent.IsPlain

variable {f : NamedContent}

theorem files (h : f.IsPlain) (chain : List String) :
    f.member.files chain = [⟨f.1, chain, f.2.size, f.2.bytes⟩] := by
  simp [member, Member.files, h.1, h.2]

theorem plan (h : f.IsPlain) (mode : IndexMode) (c : Container) (n : Nat) :
    f.member.plan mode c n = [.file mode c f.1 f.1 f.2.size f.2] := by
  simp [member, Member.plan, h.1, h.2]

theorem nestedCount (h : f.IsPlain) : f.member.nestedCount = 0 := by
  simp [member, Member.nestedCount, h.1, h.2]

theorem containers (h : f.IsPlain) : f.member.containers = [] := by
  simp [member, Member.containers, h.1, h.2]

end NamedContent.IsPlain

namespace Index

variable {i : Index} {d : Disk} {source : String} {files : List Occurrence}

/-- An index of files with different names has an entry for each of them, and no other. -/
theorem Shows.perm (h : i.Shows source files) (hreads : i.Reads d files)
    (hnodup : (files.map Occurrence.name).Nodup) :
    (i.toList.map fun e => (e.listing, e.location.read d)).Perm
      (files.map fun f => (f.listing, .ok f.bytes)) := by
  obtain ⟨entries, -, hi⟩ := h.fold
  have hregisters : i.Registers entries := by
    rw [hi]
    exact registers_foldl (registers_new source) entries
  rw [List.perm_ext_iff_of_nodup]
  · intro x
    simp only [List.mem_map, hregisters.mem_toList_iff]
    constructor
    · rintro ⟨e, hget, rfl⟩
      have hlisting := h.get? e.name
      have hread := hreads e.name
      rw [hget] at hlisting hread
      obtain ⟨f, hlast, hlisting⟩ := Option.map_eq_some_iff.1 hlisting.symm
      rw [hlast] at hread
      exact ⟨f, mem_of_findRev?_eq_some hlast, Prod.ext hlisting (Option.some.inj hread).symm⟩
    · rintro ⟨f, hf, rfl⟩
      have hlast := (findRev?_eq_some_iff_of_nodup hnodup).2 ⟨hf, rfl⟩
      have hlisting := h.get? f.name
      have hread := hreads f.name
      rw [hlast] at hlisting hread
      obtain ⟨e, hget, hlisting⟩ := Option.map_eq_some_iff.1 hlisting
      rw [hget] at hread
      refine ⟨e, ?_, Prod.ext hlisting (Option.some.inj hread)⟩
      rwa [hregisters.name_of_get? hget]
  · refine List.Nodup.of_map (fun x : Listing × Except ArchiveError ByteArray => x.1.1) ?_
    rw [List.map_map]
    exact hregisters.nodup_names
  · refine List.Nodup.of_map (fun x : Listing × Except ArchiveError ByteArray => x.1.1) ?_
    rw [List.map_map]
    exact hnodup

end Index

namespace Disk

variable {d d' : Disk} {folder : Path} {f : Path × Content}

theorem eq_append_of_mem_filesBelow {x : Path × Item}
    (hf : f ∈ (match x.2 with
      | .file content =>
        if folder.isPrefixOf x.1 ∧ folder ≠ x.1 then some (x.1.drop folder.length, content) else none
      | .folder => none)) : x.1 = folder ++ f.1 ∧ f.1 ≠ [] := by
  obtain ⟨path, item⟩ := x
  cases item with
  | folder => cases hf
  | file content =>
    dsimp only at hf
    split at hf
    · next hbelow =>
      cases hf
      obtain ⟨rest, rfl⟩ := List.isPrefixOf_iff_prefix.1 hbelow.1
      rw [List.drop_left]
      refine ⟨rfl, ?_⟩
      rintro rfl
      exact hbelow.2 (List.append_nil _).symm
    · cases hf

theorem ne_nil_of_mem_filesBelow (hf : f ∈ d.filesBelow folder) : f.1 ≠ [] := by
  obtain ⟨x, -, hf⟩ := List.mem_filterMap.1 hf
  exact (eq_append_of_mem_filesBelow hf).2

/-- No file is there twice. -/
theorem nodup_filesBelow (d : Disk) (folder : Path) : ((d.filesBelow folder).map Prod.fst).Nodup := by
  have hkeys : d.items.toList.Pairwise fun x y => x.1 ≠ y.1 := by
    have hnodup : (d.items.toList.map Prod.fst).Nodup := by
      rw [Std.TreeMap.map_fst_toList_eq_keys]
      exact Std.TreeMap.nodup_keys
    exact List.pairwise_map.1 hnodup
  refine List.pairwise_map.2 (hkeys.filterMap _ fun x y hne f hf g hg he => hne ?_)
  rw [(eq_append_of_mem_filesBelow hf).1, (eq_append_of_mem_filesBelow hg).1, he]

namespace IsStaging

theorem leadsDown (h : d.IsStaging folder) (hf : f ∈ d.filesBelow folder) :
    ∀ name ∈ f.1, Path.LeadsDown name :=
  fun name hname => (h.names f hf name hname).1

theorem segments (h : d.IsStaging folder) (hf : f ∈ d.filesBelow folder) :
    EntryName.segments f.1.text = f.1 :=
  Path.segments_text (ne_nil_of_mem_filesBelow hf) (h.leadsDown hf)

/-- The members are the files as they are. -/
theorem members (h : d.IsStaging folder) (format : Format) :
    (d.membersBelow folder).map (Content.toMember format) =
      (d.membersBelow folder).map NamedContent.member := by
  refine List.map_congr_left fun g hg => ?_
  obtain ⟨f, hf, rfl⟩ := List.mem_map.1 hg
  refine Content.toMember_eq fun c hc => ⟨?_, ?_⟩
  · rintro rfl
    -- behind the last slash there would be an empty name
    obtain ⟨front, hfront⟩ := List.getLast?_eq_some_iff.1 hc
    have hsegments := h.segments hf
    rw [EntryName.segments, hfront, Text.segments_append_cons, List.map_append] at hsegments
    have hempty : "" ∈ f.1 := by
      rw [← hsegments]
      exact List.mem_append_right _ List.mem_cons_self
    exact (h.leadsDown hf _ hempty).notEmpty rfl
  · rintro rfl
    obtain hslash | ⟨name, hname, hback⟩ := Path.mem_toList_text (List.mem_of_getLast? hc)
    · cases hslash
    · exact (h.names f hf name hname).2.2 hback

theorem isPlain (h : d.IsStaging folder) : ∀ g ∈ d.membersBelow folder, NamedContent.IsPlain g := by
  intro g hg
  obtain ⟨f, hf, rfl⟩ := List.mem_map.1 hg
  refine ⟨Path.normalize?_text (ne_nil_of_mem_filesBelow hf) (h.leadsDown hf)
    fun name hname => (h.names f hf name hname).2.2, ?_⟩
  rw [← Option.not_isSome_iff_eq_none]
  exact fun hcontainer => h.noContainer f hf (Format.isContainer_iff.1 hcontainer)

/-- What a folder is packed into is known by the files. -/
theorem exists_pack (h : d.IsStaging folder) (format : Format) : ∃ bytes,
    Content.pack format (d.membersBelow folder) =
      .packed format bytes (Content.blocksOf format ((d.membersBelow folder).map NamedContent.member)) := by
  rw [← h.members format]
  refine Content.pack_eq fun g hg => ?_
  obtain ⟨f, hf, rfl⟩ := List.mem_map.1 hg
  change Path.hasZero f.1.text = false
  rw [Path.hasZero, Bool.eq_false_iff, ne_eq, List.contains_iff_mem]
  intro hzero
  obtain hslash | ⟨name, hname, hzero⟩ := Path.mem_toList_text hzero
  · cases hslash
  · have hnone := (h.names f hf name hname).2.1
    rw [Path.hasZero, Bool.eq_false_iff, ne_eq, List.contains_iff_mem] at hnone
    exact hnone hzero

/-- Each member of the container is one of the files. -/
theorem exists_of_mem_blocksOf (h : d.IsStaging folder) {format : Format} {m : Member}
    (hm : m ∈ (Content.blocksOf format ((d.membersBelow folder).map NamedContent.member)).flatten) :
    ∃ g : NamedContent, g ∈ d.membersBelow folder ∧ g.IsPlain ∧ g.member = m := by
  obtain ⟨g, hg, rfl⟩ := List.mem_map.1 ((Content.perm_blocksOf _ _).mem_iff.1 hm)
  exact ⟨g, hg, h.isPlain g hg, rfl⟩

/-- Different files have different names. -/
theorem nodup_names (h : d.IsStaging folder) : ((d.filesBelow folder).map fun f => f.1.text).Nodup := by
  have hpaths := nodup_filesBelow d folder
  have hmap : ((d.filesBelow folder).map Prod.fst).map Path.text =
      (d.filesBelow folder).map fun f => f.1.text := List.map_map
  rw [← hmap]
  refine hpaths.map_on fun p hp q hq he => ?_
  obtain ⟨f, hf, rfl⟩ := List.mem_map.1 hp
  obtain ⟨g, hg, rfl⟩ := List.mem_map.1 hq
  rw [← h.segments hf, he, h.segments hg]

/-- The files of the container are those of the folder. -/
theorem files (h : d.IsStaging folder) (format : Format) (archive : String) :
    ((Content.pack format (d.membersBelow folder)).files [archive]).Perm
      ((d.filesBelow folder).map fun f => ⟨f.1.text, [archive], f.2.size, f.2.bytes⟩) := by
  obtain ⟨bytes, hpack⟩ := h.exists_pack format
  rw [hpack, Content.files, filesOfBlocks_eq]
  refine ((Content.perm_blocksOf format _).flatMap_right _).trans (List.Perm.of_eq ?_)
  rw [List.flatMap_map, List.flatMap_congr fun g hg => (h.isPlain g hg).files [archive], membersBelow, List.flatMap_map]
  simp [← List.map_eq_flatMap]

/-- There is no container among the files. -/
theorem nestedCount (h : d.IsStaging folder) (format : Format) :
    (Content.pack format (d.membersBelow folder)).nestedCount = 0 := by
  obtain ⟨bytes, hpack⟩ := h.exists_pack format
  rw [hpack, Content.nestedCount, nestedCountOfBlocks_eq]
  refine nestedCountOf_eq_zero fun m hm => ?_
  obtain ⟨g, -, hplain, rfl⟩ := h.exists_of_mem_blocksOf hm
  exact hplain.nestedCount

/-- What is written when the container is extracted. -/
theorem mem_written_plan (h : d.IsStaging folder) {format : Format} {mode : IndexMode} {c : Container} {n : Nat}
    {path : Path} (hpath : path ∈ written ((Content.pack format (d.membersBelow folder)).plan mode c n)) :
    mode = .extract ∧ ∃ f ∈ d.filesBelow folder, path = c.target ++ f.1 := by
  obtain ⟨bytes, hpack⟩ := h.exists_pack format
  obtain ⟨a, ha, hpath⟩ := List.mem_filterMap.1 hpath
  rw [hpack, Content.plan, planOfBlocks_eq] at ha
  revert a
  refine forall_planOf (fun m hm n a ha hpath => ?_) n
  obtain ⟨g, hg, hplain, rfl⟩ := h.exists_of_mem_blocksOf hm
  obtain ⟨f, hf, rfl⟩ := List.mem_map.1 hg
  rw [hplain.plan, List.mem_singleton] at ha
  subst ha
  cases mode with
  | index => cases hpath
  | extract =>
    refine ⟨rfl, f, hf, ?_⟩
    rw [← h.segments hf]
    exact (Option.some.inj hpath).symm

theorem isSound (h : d.IsStaging folder) (format : Format) :
    (Content.pack format (d.membersBelow folder)).IsSound format := by
  obtain ⟨bytes, hpack⟩ := h.exists_pack format
  rw [hpack]
  refine .packed fun m hm => ?_
  obtain ⟨g, -, ⟨hname, hformat⟩, rfl⟩ := h.exists_of_mem_blocksOf hm
  exact .file hname hformat id

theorem isUnambiguous (h : d.IsStaging folder) (format : Format) :
    (Content.pack format (d.membersBelow folder)).isUnambiguous = true := by
  obtain ⟨bytes, hpack⟩ := h.exists_pack format
  rw [hpack, Content.isUnambiguous, Content.containers, containersOfBlocks_eq, List.flatMap_eq_nil_iff.2, List.all_cons,
    List.all_nil, Bool.and_true, isUnambiguous_iff]
  · refine ⟨fun m hm _ _ hfolder => ?_, fun _ block hblock => ?_⟩
    · obtain ⟨g, -, -, rfl⟩ := h.exists_of_mem_blocksOf hm
      cases hfolder
    · have hnames : (((d.membersBelow folder).map NamedContent.member).map Member.name).Nodup := by
        rw [membersBelow, List.map_map, List.map_map]
        exact h.nodup_names
      exact hnames.sublist ((List.filter_sublist.trans (Content.sublist_of_mem_blocksOf hblock)).map _)
  · intro m hm
    obtain ⟨g, -, hplain, rfl⟩ := h.exists_of_mem_blocksOf hm
    exact hplain.containers

/-- The container can be indexed wherever there is room for it. -/
theorem indexable (h : d.IsStaging folder) {format : Format} {mode : IndexMode} {output : String}
    {target : Path} (hannounced : Format.ofPath? output = some format)
    (hopens : d'.open? output = some (Content.pack format (d.membersBelow folder))) (hway : d'.IsOpen target)
    (hroom : mode = .extract → ∀ f ∈ d.filesBelow folder,
      d'.HasSpot (target ++ f.1) ∧ target ++ f.1 ≠ Path.ofText output) :
    Indexable mode output format target d' (Content.pack format (d.membersBelow folder)) := by
  refine ⟨hannounced, hopens, h.isSound format, hway, ⟨fun p hp => ?_, fun p hp q hq hbefore => ?_⟩, fun hp => ?_⟩
  · obtain ⟨hmode, f, hf, rfl⟩ := h.mem_written_plan hp
    exact (hroom hmode f hf).1
  · obtain ⟨-, f, hf, rfl⟩ := h.mem_written_plan hp
    obtain ⟨-, g, hg, rfl⟩ := h.mem_written_plan hq
    rw [h.apart f hf g hg ((List.prefix_append_right_inj _).1 hbefore)]
  · obtain ⟨hmode, f, hf, he⟩ := h.mem_written_plan hp
    exact (hroom hmode f hf).2 he.symm

end IsStaging

/-- **Packing and indexing give a folder back.** The container has exactly one entry for each file: under the
names that lead to it, with the container's name as its whole chain, with its size and its bytes. -/
theorem pack_round_trips {output name : String} (hstaging : d.IsStaging folder)
    (hname : Path.fileName? output = some name) (hcontainer : Format.EndsAsContainer name)
    (htakes : d.Takes output) :
    ∃ d', d.pack folder output = .ok d' ∧ ∀ mode target, d'.IsOpen target →
      (mode = .extract → ∀ f ∈ d.filesBelow folder,
        d'.HasSpot (target ++ f.1) ∧ target ++ f.1 ≠ Path.ofText output) →
      ∃ i d'', Index.build mode output target d' = (.ok i, d'') ∧ i.duplicates = [] ∧
        (i.toList.map fun e => (e.listing, e.location.read d'')).Perm
          ((d.filesBelow folder).map fun f => ((f.1.text, [name], f.2.size), .ok f.2.bytes)) := by
  obtain ⟨format, hformat⟩ := Option.isSome_iff_exists.1 (Format.isContainer_iff.2 hcontainer)
  have hannounced : Format.ofPath? output = some format := by
    rw [Format.ofPath?, hname, Option.bind_some, hformat]
  obtain ⟨d₁, d', hway, hwrite, hopens⟩ :=
    htakes.exists_write? (Content.pack format (d.membersBelow folder))
  have hpack : d.pack folder output = .ok d' := by
    simp [pack, hannounced, isFolder_iff.1 hstaging.isFolder, hway, htakes.noFolder, hwrite]
  refine ⟨d', hpack, fun mode target hopen hroom => ?_⟩
  have hroot : rootName output = name := by rw [rootName, hname]; rfl
  obtain ⟨i, d'', hbuild, hshows, -, hreads⟩ := (hstaging.indexable hannounced hopens hopen hroom).exists_index
  have hfresh : (Content.pack format (d.membersBelow folder)).HasFreshFolders d'.clock d'.serial := by
    intro f _ k _ _ hlo hhi
    rw [hstaging.nestedCount] at hhi
    omega
  have hfiles := hstaging.files format name
  rw [hroot] at hshows hreads
  have hnames : (((Content.pack format (d.membersBelow folder)).files [name]).map Occurrence.name).Nodup := by
    refine (hfiles.map _).nodup_iff.2 ?_
    rw [List.map_map]
    exact hstaging.nodup_names
  refine ⟨i, d'', hbuild, ?_, ?_⟩
  · rw [hshows.duplicates]
    refine repeatsAfter_eq_nil ?_
    rw [List.nil_append, List.map_map]
    exact hnames
  · have hperm := hshows.perm (hreads (fun _ => hstaging.isUnambiguous format) fun _ => hfresh) hnames
    refine (hperm.trans (hfiles.map _)).trans (List.Perm.of_eq ?_)
    rw [List.map_map]
    rfl

/-- A folder with two files, of which one is empty, and a folder without files. -/
def sampleStaging : Disk :=
  { Disk.empty with items := .ofList [(["s"], Item.folder), (["s", "data"], .folder), (["s", "unused"], .folder),
      (["s", "data", "a.scr"], .file (.ofText "f();")), (["s", "empty.txt"], .file .empty)] }

theorem filesBelow_sampleStaging : sampleStaging.filesBelow ["s"] =
    [(["data", "a.scr"], .ofText "f();"), (["empty.txt"], .empty)] := rfl

theorem pack_round_trips_of_two_files :
    ∃ d', sampleStaging.pack ["s"] "out/Merged.PAK" = .ok d' ∧ ∀ mode, ∃ i d'',
      Index.build mode "out/Merged.PAK" ["dest"] d' = (.ok i, d'') ∧ i.duplicates = [] ∧
        (i.toList.map fun e => (e.listing, e.location.read d'')).Perm
          [(("data/a.scr", ["Merged.PAK"], 4), .ok "f();".toUTF8),
            (("empty.txt", ["Merged.PAK"], 0), .ok .empty)] := by
  have hstaging : sampleStaging.IsStaging ["s"] := by
    refine ⟨by decide, ?_, ?_, ?_⟩
    all_goals rw [filesBelow_sampleStaging]
    · have hnames : ∀ f ∈ [(["data", "a.scr"], Content.ofText "f();"), (["empty.txt"], .empty)],
          ∀ name ∈ f.1, ('/' ∉ name.toList ∧ name ≠ "" ∧ name ≠ "." ∧ name ≠ "..") ∧
            Path.hasZero name = false ∧ '\\' ∉ name.toList := by decide
      intro f hf name hname
      obtain ⟨⟨hslash, hempty, hhere, hup⟩, hrest⟩ := hnames f hf name hname
      exact ⟨⟨hslash, hempty, hhere, hup⟩, hrest⟩
    · decide
    · have hnone : ∀ f ∈ [(["data", "a.scr"], Content.ofText "f();"), (["empty.txt"], .empty)],
          Format.isContainer (Path.text f.1) = false := by decide
      intro f hf hcontainer
      rw [← Format.isContainer_iff, hnone f hf] at hcontainer
      cases hcontainer
  have hname : Path.fileName? "out/Merged.PAK" = some "Merged.PAK" := by decide
  obtain ⟨d', hpack, h⟩ := pack_round_trips hstaging hname ⟨"Merged".toList, "PAK".toList, by decide, by decide⟩
    ⟨⟨_, rfl, by decide, by decide⟩, by decide⟩
  refine ⟨d', hpack, fun mode => h mode ["dest"] ?_ fun _ => ?_⟩
  · obtain rfl := Except.ok.inj (show Except.ok _ = Except.ok d' from hpack)
    decide
  · obtain rfl := Except.ok.inj (show Except.ok _ = Except.ok d' from hpack)
    decide

end Disk

end ModWeave
