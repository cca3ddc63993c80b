import ModWeave.Proofs.Index.Agreement
import ModWeave.Proofs.Run.Collect
import ModWeave.Proofs.Run.Results
import ModWeave.Run.Workspace

/-!
What a run puts in the places of its files. Where copies, places and the folder for copies of the base archive
lie apart, each place holds in the end what the report says, and no file is lost but where nothing could be
put in its place.
-/
namespace ModWeave

/-- A folder of another one is known by what lies below it. -/
theorem Path.eq_of_isPrefix {root path : Path} {name name' : String} (h : root ++ [name] <+: path)
    (h' : root ++ [name'] <+: path) : name = name' := by
  rcases List.prefix_or_prefix_of_prefix h h' with hle | hle
  · simpa using hle.eq_of_length (by simp)
  · simpa using (hle.eq_of_length (by simp)).symm

/-- No mod's folder is one that a run has for something else. -/
theorem Workspace.ne_modFolder (number : Nat) :
    ∀ name ∈ ["merged", "base_cache"], name ≠ s!"mod_{number}" := by
  intro name hname heq
  have hstart : ['m', 'o'] <+: s!"mod_{number}".toList :=
    ⟨"d_".toList ++ (toString number).toList, by simp [toString]⟩
  rw [← heq] at hstart
  have hnames : ∀ name ∈ ["merged", "base_cache"], ¬ ['m', 'o'] <+: name.toList := by decide
  exact hnames name hname hstart

namespace FileMerger

/-- Whether the places of files lie apart from their copies, and both from a folder. -/
structure Apart (m : FileMerger) (folder : Path) (files : List (String × List ModFile)) : Prop where
  above : ¬ folder <+: m.staging
  below : ¬ m.staging <+: folder
  copies : ∀ f ∈ files, ∀ copy ∈ f.2, ¬ m.staging <+: copy.path ∧ ¬ folder <+: copy.path

variable {m : FileMerger} {operator : Operator} {folder : Path} {file : String}
  {files : List (String × List ModFile)} {f : String × List ModFile} {results : List FileResult}
  {s s' : Progress}

theorem target_injective (m : FileMerger) : Function.Injective m.target := fun _ _ h =>
  EntryName.segments_injective (List.append_cancel_left h)

theorem Apart.target (h : m.Apart folder files) (file : String) : ¬ folder <+: m.target file := by
  intro hfolder
  rcases List.prefix_or_prefix_of_prefix hfolder (List.prefix_append _ _) with hprefix | hprefix
  · exact h.above hprefix
  · exact h.below hprefix

theorem Apart.of_cons (h : m.Apart folder (f :: files)) : m.Apart folder files :=
  ⟨h.above, h.below, fun g hg => h.copies g (List.mem_cons_of_mem _ hg)⟩

/-- In the folder of a run they lie apart. -/
theorem Apart.of_workspace (w : Workspace) (settings : MergeSettings) (now : Nat) {p : PathCorrection}
    {base : Index} {mods : List Index} (hmods : ∀ mod ∈ mods, ∃ number source d d',
      Index.build .extract source (w.modFolder number) d = (.ok mod, d')) :
    Apart ⟨settings, w.merged, now⟩ (w.baseCache ++ ["content"])
      (Collection.ofMods p base mods).1.toList := by
  have hcontent : w.baseCache <+: w.baseCache ++ ["content"] := List.prefix_append _ _
  refine ⟨fun h => ?_, fun h => ?_, fun f hf copy hcopy => ?_⟩
  · exact absurd (Path.eq_of_isPrefix (hcontent.trans h) (List.prefix_refl _)) (by decide)
  · exact absurd (Path.eq_of_isPrefix hcontent h) (by decide)
  · obtain ⟨mod, hmod, name, hmem⟩ := Collection.exists_extracted hf hcopy
    obtain ⟨number, source, d, d', hbuild⟩ := hmods mod hmod
    obtain ⟨es, hregisters, hbelow⟩ := Index.registers_of_build hbuild
    obtain ⟨e, hget, hlocation⟩ := hregisters.mem_extracted_iff.1 hmem
    rw [hregisters.get?] at hget
    have hfolder := hbelow e (mem_of_findRev?_eq_some hget) copy.path hlocation
    exact ⟨fun h => Workspace.ne_modFolder number _ (by simp) (Path.eq_of_isPrefix h hfolder),
      fun h => Workspace.ne_modFolder number _ (by simp) (Path.eq_of_isPrefix (hcontent.trans h) hfolder)⟩

/-- While files are put in their places the copies stay as they are. -/
theorem Apart.read?_copy (h : m.Apart s.base.content.folder files) (names : List String)
    (hkeeps : s.KeepsBut (names.map m.target) s') (hf : f ∈ files) {copy : ModFile} (hcopy : copy ∈ f.2) :
    s'.disk.read? copy.path = s.disk.read? copy.path := by
  obtain ⟨hstaging, hfolder⟩ := h.copies f hf copy hcopy
  refine hkeeps.read? _ (fun hmem => ?_) hfolder
  obtain ⟨name, -, heq⟩ := List.mem_map.1 hmem
  exact hstaging (heq ▸ List.prefix_append _ _)

/-- Other places stay as they are. -/
theorem Apart.read?_target (h : m.Apart s.base.content.folder files) (names : List String)
    (hkeeps : s.KeepsBut (names.map m.target) s') (hfile : file ∉ names) :
    s'.disk.read? (m.target file) = s.disk.read? (m.target file) := by
  refine hkeeps.read? _ (fun hmem => hfile ?_) (h.target file)
  obtain ⟨name, hname, heq⟩ := List.mem_map.1 hmem
  exact m.target_injective heq ▸ hname

/-- A file that is not lost has something in its place. -/
theorem Outcome.staged_eq_none_iff {d : Disk} {copies : List ModFile} {action : FileAction}
    {records : List ConflictReport} {staged : Option Content}
    (h : m.Outcome operator d file copies action records staged) :
    staged = none ↔ ∃ reason, action = .failed reason none := by
  cases h <;> simp

/-- The place of a file that was made holds what came of it. -/
theorem Makes.read?_target {copies : List ModFile} {action : FileAction} {records : List ConflictReport}
    {staged : Option Content} (h : m.Makes operator file copies s action records staged s')
    (hapart : m.Apart s.base.content.folder files) (hempty : s.disk.read? (m.target file) = none) :
    s'.disk.read? (m.target file) = staged := by
  cases staged with
  | some content => exact h.read? content rfl
  | none => rw [hapart.read?_target [] (h.lost rfl).1 List.not_mem_nil, hempty]

/-- How a file stands at the end of a run over files: what the report says of it came about, and is in its
place. Nothing is there only if the last copy could not be put there when it was to be. -/
structure Staged (m : FileMerger) (operator : Operator) (files : List (String × List ModFile))
    (s s' : Progress) (f : String × List ModFile) (res : FileResult) : Prop where
  name : res.entry.name = f.1
  sources : res.entry.sources = f.2.map (·.source)
  place : s'.disk.read? (m.target f.1) = res.staged
  outcome : m.Outcome operator s.disk f.1 f.2 res.entry.action res.records res.staged
  none_iff : res.staged = none ↔ ∃ reason, res.entry.action = .failed reason none
  lost : res.staged = none → ∃ s₁ : Progress, s.KeepsBut (files.map fun f => m.target f.1) s₁ ∧
    m.stageLast? f.1 f.2 s₁.disk = none

/-- In the end each place holds what came of its file. -/
theorem Results.staged (h : m.Results operator s files results s')
    (hapart : m.Apart s.base.content.folder files) (hnodup : (files.map Prod.fst).Nodup)
    (hempty : ∀ f ∈ files, s.disk.read? (m.target f.1) = none) :
    List.Forall₂ (m.Staged operator files s s') files results := by
  induction h with
  | nil => exact .nil
  | @cons s s₁ s' file copies action records staged rest results hmakes hrest ih =>
    rw [List.map_cons, List.nodup_cons] at hnodup
    rw [List.forall_mem_cons] at hempty
    have hstart : s.KeepsBut ([file].map m.target) s₁ := hmakes.keeps
    have hend : s₁.KeepsBut ((rest.map Prod.fst).map m.target) s' := by
      rw [List.map_map]
      exact hrest.keeps.of_report
    have hapart₁ : m.Apart s₁.base.content.folder rest := hstart.folder ▸ hapart.of_cons
    have hempty₁ : ∀ f ∈ rest, s₁.disk.read? (m.target f.1) = none := by
      intro f hf
      rw [← hempty.2 f hf]
      refine hapart.read?_target [file] hstart fun hmem => hnodup.1 ?_
      exact List.mem_map.2 ⟨f, hf, List.mem_singleton.1 hmem⟩
    refine .cons ?_ (forall₂_imp_of_mem (ih hapart₁ hnodup.2 hempty₁) fun f hf res hres => ?_)
    · obtain ⟨s₀, hkeeps, houtcome⟩ := hmakes.outcome
      replace houtcome := houtcome.congr fun copy hcopy =>
        (hapart.read?_copy [] hkeeps List.mem_cons_self hcopy).symm
      refine ⟨rfl, rfl, ?_, houtcome, houtcome.staged_eq_none_iff, fun hnone => ?_⟩
      · rw [hapart₁.read?_target (rest.map Prod.fst) hend hnodup.1, hmakes.read?_target hapart hempty.1]
      · exact ⟨s₁, hmakes.keeps.mono (by simp), (hmakes.lost hnone).2⟩
    · refine ⟨hres.name, hres.sources, hres.place, ?_, hres.none_iff, fun hnone => ?_⟩
      · exact hres.outcome.congr fun copy hcopy => (hapart.of_cons.read?_copy [file] hstart hf hcopy).symm
      · obtain ⟨s₂, hkeeps, hstuck⟩ := hres.lost hnone
        exact ⟨s₂, hmakes.keeps.trans hkeeps.of_report, hstuck⟩

/-- **No file is lost and each place holds what the report says**, in every run that comes to its end. The
operator may end a run before; otherwise only a script that redefines something keeps it from its end. And
the work on a file changes no other file's place. -/
theorem mergeAll_stages {m : FileMerger} {files : Collection} {t : Moment} (operator : Operator) (time : Nat)
    (hempty : ∀ path, m.staging <+: path → t.progress.disk.read? path = none)
    (hapart : m.Apart t.progress.base.content.folder files.toList) :
    (∃ r t', Ends operator time (m.mergeAll files.toList) t r t' ∧
      ((r = .error .aborted ∧ t'.IsAborted) ∨
        (r = .error .outOfRange ∧ ∃ f ∈ files.toList, m.ReadsRedefinition t.progress.disk f.1 f.2) ∨
        r = .ok () ∧ ∃ results : List FileResult,
          t'.progress.report.files = t.progress.report.files ++ results.map FileResult.entry ∧
          List.Forall₂ (m.Staged operator files.toList t.progress t'.progress) files.toList results)) ∧
      ∀ f t₁ r t₂, Ends operator time (m.mergeAll [f]) t₁ r t₂ →
        t₁.progress.base.content.folder = t.progress.base.content.folder → ∀ other, other ≠ f.1 →
          t₂.progress.disk.read? (m.target other) = t₁.progress.disk.read? (m.target other) := by
  have hnodup : (files.toList.map Prod.fst).Nodup := by
    rw [Std.TreeMap.map_fst_toList_eq_keys]
    exact Std.TreeMap.nodup_keys
  constructor
  · obtain ⟨r, t', h⟩ := exists_ends operator time (m.mergeAll files.toList) t
    refine ⟨r, t', h, ?_⟩
    obtain hr | ⟨hr, f, hf, s, hkeeps, hlanguage, copy, hcopy, tree, hread, hredefines⟩ |
      ⟨hr, results, hresults⟩ := h.mergeAll_cases
    · exact .inl hr
    · refine .inr (.inl ⟨hr, f, hf, hlanguage, copy, hcopy, tree, ?_, hredefines⟩)
      have hcopies := hapart.read?_copy (files.toList.map Prod.fst) (by rwa [List.map_map]) hf hcopy
      simpa only [Disk.readTree?, hcopies] using hread
    · refine .inr (.inr ⟨hr, results, ?_, ?_⟩)
      · rw [hresults.report, Report.files_foldl_addResult]
      · exact hresults.staged hapart hnodup fun f _ => hempty _ (List.prefix_append _ _)
  · intro f t₁ r t₂ h hfolder other hother
    have hempty₁ : m.Apart t₁.progress.base.content.folder [] :=
      ⟨hfolder ▸ hapart.above, hfolder ▸ hapart.below, by simp⟩
    exact hempty₁.read?_target [f.1] h.keeps_of_mergeAll (by simpa using hother)

section Sample

/-- A disk with some texts in the working folder. -/
def sampleDisk (texts : List (String × String)) : Disk :=
  { Disk.empty with items := .ofList (texts.map fun (name, text) => ([name], Item.file (.ofText text))) }

theorem read?_sampleDisk {texts : List (String × String)} {path : Path} (h : path.length ≠ 1) :
    (sampleDisk texts).read? path = none := by
  have hnone : (sampleDisk texts).items[path]? = none := by
    refine Std.TreeMap.getElem?_ofList_of_contains_eq_false (Bool.eq_false_iff.2 fun hmem => ?_)
    rw [List.contains_iff_mem, List.map_map] at hmem
    obtain ⟨x, -, rfl⟩ := List.mem_map.1 hmem
    exact h rfl
  unfold Disk.read? Disk.item?
  rw [hnone]
  split <;> simp_all

/-- A run that puts its files into a folder of their own. -/
def sampleMerger : FileMerger := ⟨.default, ["run", "merged"], 0⟩

/-- The start of a run with some texts. The base archive has no files. -/
def sampleStart (texts : List (String × String)) : Moment :=
  ⟨⟨⟨.new "game.zip", .new ["run", "cache"], .new 1 0⟩, sampleDisk texts, .new,
    .new "game.zip" ["first.zip", "second.zip"] "out.zip" ""⟩, []⟩

theorem sampleStart_empty (texts : List (String × String)) (path : Path)
    (h : sampleMerger.staging <+: path) : (sampleStart texts).progress.disk.read? path = none := by
  refine read?_sampleDisk fun hlength => ?_
  have hle := h.length_le
  rw [hlength] at hle
  exact absurd hle (by decide)

/-- An operator who takes the mod's side. -/
def sampleOperator : Operator := fun _ _ => .choose .takeMod

/-- What a run that has come to its end leaves. -/
def ended? : Except RunFailure Unit × Progress → Option Progress
  | (.ok (), s) => some s
  | (.error _, _) => none

/-- What a run leaves that a redefinition has kept from its end. -/
def outOfRange? : Except RunFailure Unit × Progress → Option Progress
  | (.error .outOfRange, s) => some s
  | _ => none

theorem outOfRange?_eq_some {r : Except RunFailure Unit} {s s' : Progress}
    (h : outOfRange? (r, s) = some s') : r = .error .outOfRange ∧ s = s' := by
  unfold outOfRange? at h
  split at h
  · next heq =>
    cases heq
    exact ⟨rfl, Option.some.inj h⟩
  · cases h

/-- What a run comes to. -/
def sampleRun (files : Collection) (texts : List (String × String)) : Except RunFailure Unit × Progress :=
  (((sampleMerger.mergeAll files.toList).run.run (sampleStart texts).progress).hold sampleOperator 0 []).1

theorem sampleRun_of_ends {files : Collection} {texts : List (String × String)} {r : Except RunFailure Unit}
    {t' : Moment} (h : Ends sampleOperator 0 (sampleMerger.mergeAll files.toList) (sampleStart texts) r t') :
    sampleRun files texts = (r, t'.progress) := congrArg Prod.fst h

theorem mergeAll_stages_a_last_copy :
    let files : Collection := (∅ : Collection).insert "run.bin"
      [⟨"first.zip", ["first"]⟩, ⟨"second.zip", ["second"]⟩]
    ∃ t', Ends sampleOperator 0 (sampleMerger.mergeAll files.toList)
        (sampleStart [("first", "1"), ("second", "22")]) (.ok ()) t' ∧
      t'.progress.report.files = [⟨"run.bin", ["first.zip", "second.zip"], .lastWins "second.zip"⟩] ∧
      t'.progress.disk.read? (sampleMerger.target "run.bin") = some (.ofText "22") := by
  intro files
  let texts := [("first", "1"), ("second", "22")]
  have hcomes : (ended? (sampleRun files texts)).map (·.report.files) =
      some [⟨"run.bin", ["first.zip", "second.zip"], .lastWins "second.zip"⟩] := by decide +kernel
  have hapart : sampleMerger.Apart ["run", "cache"] files.toList := ⟨by decide, by decide, by decide⟩
  obtain ⟨⟨r, t', hends, hr⟩, -⟩ := @mergeAll_stages sampleMerger files (sampleStart texts) sampleOperator 0
    (sampleStart_empty texts) hapart
  rw [sampleRun_of_ends hends] at hcomes
  obtain ⟨rfl, -⟩ | ⟨rfl, -⟩ | ⟨rfl, results, hfiles, hall⟩ := hr
  · cases hcomes
  · cases hcomes
  · replace hcomes : t'.progress.report.files =
        [⟨"run.bin", ["first.zip", "second.zip"], .lastWins "second.zip"⟩] := Option.some.inj hcomes
    refine ⟨t', hends, hcomes, ?_⟩
    have hlist : files.toList = [("run.bin", [⟨"first.zip", ["first"]⟩, ⟨"second.zip", ["second"]⟩])] := rfl
    rw [hcomes] at hfiles
    rw [hlist] at hall
    cases hall with
    | @cons _ res _ _ hres hnone =>
      cases hnone
      have houtcome := hres.outcome
      have haction : res.entry.action = .lastWins "second.zip" := by
        rw [← (List.cons.inj hfiles).1]
      rw [hres.place]
      generalize res.staged = staged at houtcome
      generalize res.records = records at houtcome
      generalize res.entry.action = action at houtcome haction
      cases houtcome with
      | lastWins _ hlast hread =>
        cases hlast
        have hsecond : (sampleStart texts).progress.disk.read? ["second"] = some (.ofText "22") := rfl
        exact hread.symm.trans hsecond
      | _ => cases haction

/-- A script in two copies, and another file. -/
def sampleFiles : Collection := ((∅ : Collection).insert "a.scr"
  [⟨"first.zip", ["first"]⟩, ⟨"second.zip", ["second"]⟩]).insert "b.txt" [⟨"second.zip", ["extra"]⟩]

/-- The second copy of the script redefines a variable. -/
def redefiningTexts : List (String × String) :=
  [("first", "a();"), ("second", "a(); int x = 1; b(); int x = 2;"), ("extra", "b")]

/-- A copy that redefines something keeps a whole run from its end: nothing is in the place of a file, its own
or another one, and nothing is reported. -/
theorem mergeAll_loses_files :
    (∀ f ∈ sampleFiles.toList, ∀ copy ∈ f.2,
        (sampleStart redefiningTexts).progress.disk.isFile copy.path = true) ∧
      ∃ t', Ends sampleOperator 0 (sampleMerger.mergeAll sampleFiles.toList) (sampleStart redefiningTexts)
          (.error .outOfRange) t' ∧
        t'.progress.report.files = [] ∧
        ∀ f ∈ sampleFiles.toList, t'.progress.disk.has (sampleMerger.target f.1) = false := by
  have hcomes : (outOfRange? (sampleRun sampleFiles redefiningTexts)).map (fun s => (s.report.files,
      sampleFiles.toList.all fun f => !s.disk.has (sampleMerger.target f.1))) = some ([], true) := by
    decide +kernel
  obtain ⟨r, t', hends⟩ := exists_ends sampleOperator 0 (sampleMerger.mergeAll sampleFiles.toList)
    (sampleStart redefiningTexts)
  rw [sampleRun_of_ends hends] at hcomes
  obtain ⟨s, hs, hcomes⟩ := Option.map_eq_some_iff.1 hcomes
  obtain ⟨rfl, rfl⟩ := outOfRange?_eq_some hs
  obtain ⟨hfiles, hnone⟩ := Prod.mk.inj hcomes
  rw [List.all_eq_true] at hnone
  exact ⟨by decide +kernel, t', hends, hfiles, fun f hf => by simpa using hnone f hf⟩

end Sample

end FileMerger

end ModWeave
