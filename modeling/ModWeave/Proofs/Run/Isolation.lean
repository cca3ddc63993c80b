import ModWeave.Proofs.Run.Waiting

/-!
Files have no part in each other. In two runs that have a file in common, with the same copies and the same game
to compare with, the same comes of it, whatever else the runs merge and however they keep trees, as long as the
operator goes by the record alone and never chooses for all conflicts.
-/
namespace ModWeave.FileMerger

variable {m n : FileMerger} {answers : Conflict → Answer} {file : String} {copies others : List ModFile}

section View

variable {s : Progress}

theorem view_addConflicts (m : FileMerger) (file : String) (copies : List ModFile) (s : Progress)
    (cs : List ConflictReport) : m.view file copies { s with report := s.report.addConflicts cs } =
      { m.view file copies s with
        conflicts := (m.view file copies s).conflicts ++ cs.filter (·.names.file = file) } := by
  simp [view, Report.addConflicts]

theorem view_addFile (m : FileMerger) (file : String) (copies : List ModFile) (s : Progress)
    (entry : FileReport) : m.view file copies { s with report := s.report.addFile entry } =
      { m.view file copies s with
        entries := (m.view file copies s).entries ++ [entry].filter (·.name = file) } := by
  simp [view, Report.addFile]

/-- A file that is put in its place could be put there again. -/
theorem view_put {d : Disk} {content : Content} (hput : s.disk.put? (m.target file) content = some d)
    (hcopies : ∀ copy ∈ copies, copy.path ≠ m.target file) :
    m.view file copies { s with disk := d } =
      { m.view file copies s with spot := True, place := some content } := by
  obtain ⟨hspot, hputs⟩ := Disk.puts_of_put? hput
  simp only [view, View.mk.injEq, Disk.read?_put? hput, if_pos, true_and, and_true, eq_iff_iff, iff_true]
  exact ⟨List.map_congr_left fun copy hcopy => by rw [if_neg (hcopies copy hcopy)], hputs.hasSpot hspot⟩

end View

/-- Where the work on a file sees the same of two runs, it goes alike. -/
theorem matches_view (hsettings : m.settings = n.settings)
    (hzero : (m.target file).any Path.hasZero = (n.target file).any Path.hasZero)
    (hcopies : ∀ copy ∈ copies, copy.path ≠ m.target file)
    (hothers : ∀ copy ∈ others, copy.path ≠ n.target file) :
    m.Matches n answers file copies others fun s u => m.view file copies s = n.view file others u where
  settings := hsettings
  zero := hzero
  session h := congrArg View.session h
  copies h := by
    have heq := congrArg View.copies h
    rw [← List.forall₂_eq_eq_eq] at heq
    simp only [view, List.forall₂_map_left_iff, List.forall₂_map_right_iff] at heq
    exact heq.imp fun a b hab => Prod.mk.inj hab
  answer {s u} c choice _ h := by
    show { m.view file copies s with session := ((m.view file copies s).session.apply c choice).1 } =
      { n.view file others u with session := ((n.view file others u).session.apply c choice).1 }
    rw [h]
  put {s u} content h := by
    have hspot : s.disk.HasSpot (m.target file) = u.disk.HasSpot (n.target file) := congrArg View.spot h
    obtain ⟨hnone, hs⟩ | ⟨d, hd, hs, -⟩ := s.disk.put?_cases (m.target file) content
    · obtain ⟨hnone', -⟩ | ⟨e, -, hu, -⟩ := u.disk.put?_cases (n.target file) content
      · exact .inl ⟨hnone, hnone'⟩
      · exact absurd (hspot ▸ hu) hs
    · obtain ⟨-, hu⟩ | ⟨e, he, -⟩ := u.disk.put?_cases (n.target file) content
      · exact absurd (hspot ▸ hs) hu
      · refine .inr ⟨d, e, hd, he, ?_⟩
        rw [view_put hd hcopies, view_put he hothers, h]
  conflicts {s u} cs h := by rw [view_addConflicts, view_addConflicts, h]
  entry {s u} entry h := by rw [view_addFile, view_addFile, h]

theorem nodup_names (files : Collection) : (files.toList.map Prod.fst).Nodup := by
  rw [Std.TreeMap.map_fst_toList_eq_keys]
  exact Std.TreeMap.nodup_keys

theorem Apart.ne_target {folder : Path} {files : List (String × List ModFile)} (h : m.Apart folder files)
    (hfile : (file, copies) ∈ files) : ∀ copy ∈ copies, copy.path ≠ m.target file := fun copy hcopy heq =>
  (h.copies _ hfile copy hcopy).1 (heq ▸ List.prefix_append _ _)

/-- A run comes to its end, unless a copy redefines something or the operator ends it. -/
theorem Begins.ends_cases {files : List (String × List ModFile)} {time : Nat} {t t' : Moment}
    {r : Except RunFailure Unit} (hbegins : m.Begins files t.progress) (hanswers : ∀ c, answers c ≠ .abort)
    (h : Ends (fun _ => answers) time (m.mergeAll files) t r t') :
    (r = .error .outOfRange ∧ ∃ f ∈ files, m.ReadsRedefinition t.progress.disk f.1 f.2) ∨ r = .ok () := by
  have hkeeps (g : String × List ModFile) (_ : g ∈ files) : m.Keeps answers g.1 fun _ => True :=
    ⟨fun _ _ _ => id, fun _ => id, fun _ => id, fun _ => id⟩
  obtain ⟨hr, -⟩ | ⟨hr, f, hf, s, hkept, hlanguage, copy, hcopy, tree, hread, hredefines⟩ | ⟨hr, -⟩ :=
    h.mergeAll_cases
  · exact absurd hr (keeps_mergeAll hkeeps hanswers trivial h).1
  · refine .inl ⟨hr, f, hf, hlanguage, copy, hcopy, tree, ?_, hredefines⟩
    have hcopies := hbegins.apart.read?_copy (files.map Prod.fst) (by rwa [List.map_map]) hf hcopy
    simpa only [Disk.readTree?, hcopies] using hread
  · exact .inr hr

/-- Whether two runs begin alike for a file: with the same settings, with copies of it from the same mods that
hold the same, with the same text of the game's own file, and with the same in its place and on the way there. -/
structure BeginAlike (m n : FileMerger) (file : String) (copies others : List ModFile) (s u : Progress) :
    Prop where
  settings : m.settings = n.settings
  zero : (m.target file).any Path.hasZero = (n.target file).any Path.hasZero
  vanilla : s.base.index.text? s.disk file = u.base.index.text? u.disk file
  view : m.view file copies s = n.view file others u

/-- Two turns of a file go alike. -/
theorem Turn.alike {time time' : Nat} {t t₁ t₂ t' u u₁ u₂ u' : Moment}
    (ht : m.Turn answers time file copies t t₁ t₂ t') (hu : n.Turn answers time' file others u u₁ u₂ u')
    (halike : m.BeginAlike n file copies others t.progress u.progress)
    (hcopies : ∀ copy ∈ copies, copy.path ≠ m.target file)
    (hothers : ∀ copy ∈ others, copy.path ≠ n.target file) (hanswers : ∀ c, answers c ≠ .abort) :
    m.view file copies t₂.progress = n.view file others u₂.progress := by
  have hmatches : m.Matches n answers file copies others _ :=
    matches_view halike.settings halike.zero hcopies hothers
  have hview : m.view file copies t₁.progress = n.view file others u₁.progress := by
    rw [ht.before, hu.before, halike.view]
  refine (hmatches.mergeAll hanswers hview (fun language => ⟨?_, ?_⟩) _ _ _ _ _ _ ht.turn hu.turn).2.2
  · rw [ht.vanilla, hu.vanilla, halike.vanilla]
  · rw [ht.consulted, hu.consulted, hview]

/-- A file is reported once, in its turn. -/
theorem Turn.exists_entry {files : List (String × List ModFile)} {time : Nat} {t t₁ t₂ t' : Moment}
    (h : m.Turn answers time file copies t t₁ t₂ t') (hbegins : m.Begins files t.progress) :
    ∃ entry, t₂.progress.report.files.filter (·.name = file) = [entry] := by
  have hbefore : t₁.progress.report.files.filter (·.name = file) = [] := by
    rw [show t₁.progress.report.files.filter (·.name = file) = _ from congrArg View.entries h.before]
    simp [view, hbegins.unreported.1]
  obtain ⟨results, hresults⟩ := exists_results h.turn
  cases hresults.outcomes with
  | @cons _ res _ _ hres hnone =>
    cases hnone
    refine ⟨res.entry, ?_⟩
    rw [hresults.report, Report.files_foldl_addResult, List.filter_append, hbefore]
    simp [hres.1]

/-- **Files of a run influence each other only through the run's default.** Without one, what is in the place of
a file, its entry in the report and its conflict reports are the same in two runs that begin alike for it. Only
a copy that redefines something keeps a run from its end. -/
theorem mergeAll_isolates {files others : Collection} {copies' : List ModFile} {t u : Moment}
    (time time' : Nat)
    (hanswers : ∀ c, answers c ≠ .abort ∧ ∀ choice, answers c = .choose choice → choice.appliesToAll = false)
    (hfile : files[file]? = some copies) (hfile' : others[file]? = some copies')
    (ht : m.Begins files.toList t.progress) (hu : n.Begins others.toList u.progress)
    (halike : m.BeginAlike n file copies copies' t.progress u.progress) :
    ∃ r t' r' u', Ends (fun _ => answers) time (m.mergeAll files.toList) t r t' ∧
      Ends (fun _ => answers) time' (n.mergeAll others.toList) u r' u' ∧
      ((r = .error .outOfRange ∧ ∃ f ∈ files.toList, m.ReadsRedefinition t.progress.disk f.1 f.2) ∨
        (r' = .error .outOfRange ∧ ∃ f ∈ others.toList, n.ReadsRedefinition u.progress.disk f.1 f.2) ∨
        r = .ok () ∧ r' = .ok () ∧
          t'.progress.disk.read? (m.target file) = u'.progress.disk.read? (n.target file) ∧
          (∃ entry, t'.progress.report.files.filter (·.name = file) = [entry] ∧
            u'.progress.report.files.filter (·.name = file) = [entry]) ∧
          t'.progress.report.conflicts.filter (·.names.file = file) =
            u'.progress.report.conflicts.filter (·.names.file = file)) := by
  obtain ⟨r, t', h⟩ := exists_ends (fun _ => answers) time (m.mergeAll files.toList) t
  obtain ⟨r', u', h'⟩ := exists_ends (fun _ => answers) time' (n.mergeAll others.toList) u
  refine ⟨r, t', r', u', h, h', ?_⟩
  obtain hr | rfl := ht.ends_cases (fun c => (hanswers c).1) h
  · exact .inl hr
  obtain hr | rfl := hu.ends_cases (fun c => (hanswers c).1) h'
  · exact .inr (.inl hr)
  refine .inr (.inr ⟨rfl, rfl, ?_⟩)
  have hmem := Std.TreeMap.mem_toList_iff_getElem?_eq_some.2 hfile
  have hmem' := Std.TreeMap.mem_toList_iff_getElem?_eq_some.2 hfile'
  obtain ⟨t₁, t₂, hturn⟩ := ht.exists_turn (nodup_names files) hanswers hmem h
  obtain ⟨u₁, u₂, hturn'⟩ := hu.exists_turn (nodup_names others) hanswers hmem' h'
  have hview := hturn.alike hturn' halike (ht.apart.ne_target hmem) (hu.apart.ne_target hmem')
    fun c => (hanswers c).1
  obtain ⟨entry, hentry⟩ := hturn.exists_entry ht
  refine ⟨?_, ⟨entry, ?_, ?_⟩, ?_⟩
  · rw [hturn.place, hturn'.place]
    exact congrArg View.place hview
  · rw [hturn.entries, hentry]
  · rw [hturn'.entries, ← hentry]
    exact (congrArg View.entries hview).symm
  · rw [hturn.conflicts, hturn'.conflicts]
    exact congrArg View.conflicts hview

section Sample

/-- A run with some texts as it begins, if each copy lies in the working folder. -/
theorem begins_sample {files : Collection} (texts : List (String × String))
    (hcopies : ∀ f ∈ files.toList, ∀ copy ∈ f.2, copy.path.length = 1)
    (hpaths : ∀ f ∈ files.toList, ∀ g ∈ files.toList,
      EntryName.segments f.1 <+: EntryName.segments g.1 → f.1 = g.1) :
    sampleMerger.Begins files.toList (sampleStart texts).progress where
  unreported := ⟨rfl, rfl⟩
  named name e he := by cases he
  unasked name := by
    refine ⟨read?_sampleDisk ?_, by simp [sampleStart, RecentCache.new]⟩
    simp [sampleStart, ContentCache.copyPath, ContentCache.new]
  apart := by
    have hlong {path : Path} (hpath : 2 ≤ path.length) (f) (hf : f ∈ files.toList) (copy) (hcopy : copy ∈ f.2) :
        ¬ path <+: copy.path := fun h =>
      absurd (hpath.trans (hcopies f hf copy hcopy ▸ h.length_le)) (by decide)
    refine ⟨?_, ?_, fun f hf copy hcopy => ⟨hlong (by decide) f hf copy hcopy, hlong ?_ f hf copy hcopy⟩⟩
    · exact show ¬ ["run", "cache"] <+: ["run", "merged"] by decide
    · exact show ¬ ["run", "merged"] <+: ["run", "cache"] by decide
    · exact Nat.le_refl 2
  archive name e he := by cases he
  paths := hpaths

theorem ended?_eq_some {r : Except RunFailure Unit} {s s' : Progress} (h : ended? (r, s) = some s') :
    r = .ok () ∧ s = s' := by
  cases r with
  | ok => exact ⟨rfl, Option.some.inj h⟩
  | error _ => cases h

/-- The script of the sample by itself. -/
def loneScript : Collection := (∅ : Collection).insert "a.scr"
  [⟨"first.zip", ["first"]⟩, ⟨"second.zip", ["second"]⟩]

theorem mergeAll_isolates_a_conflict :
    ∃ t' u', Ends sampleOperator 0 (sampleMerger.mergeAll sampleFiles.toList)
        (sampleStart [("first", "f(1);"), ("second", "f(2);"), ("extra", "b")]) (.ok ()) t' ∧
      Ends sampleOperator 0 (sampleMerger.mergeAll loneScript.toList)
        (sampleStart [("first", "f(1);"), ("second", "f(2);")]) (.ok ()) u' ∧
      t'.progress.report.conflicts.length = 1 ∧
      t'.progress.disk.read? (sampleMerger.target "a.scr") =
        u'.progress.disk.read? (sampleMerger.target "a.scr") ∧
      t'.progress.report.conflicts.filter (·.names.file = "a.scr") =
        u'.progress.report.conflicts.filter (·.names.file = "a.scr") := by
  let texts := [("first", "f(1);"), ("second", "f(2);"), ("extra", "b")]
  let texts' := [("first", "f(1);"), ("second", "f(2);")]
  have hcomes : (ended? (sampleRun sampleFiles texts)).map (·.report.conflicts.length) = some 1 := by
    decide +kernel
  have hcomes' : (ended? (sampleRun loneScript texts')).isSome = true := by decide +kernel
  have halike : sampleMerger.BeginAlike sampleMerger "a.scr"
      [⟨"first.zip", ["first"]⟩, ⟨"second.zip", ["second"]⟩]
      [⟨"first.zip", ["first"]⟩, ⟨"second.zip", ["second"]⟩]
      (sampleStart texts).progress (sampleStart texts').progress := by
    refine ⟨rfl, rfl, rfl, ?_⟩
    simp only [view, View.mk.injEq]
    refine ⟨rfl, rfl, ?_, rfl, rfl, rfl⟩
    exact propext (iff_of_true (by decide +kernel) (by decide +kernel))
  have hbegins : sampleMerger.Begins sampleFiles.toList _ := begins_sample texts (by decide) (by decide +kernel)
  have hbegins' : sampleMerger.Begins loneScript.toList _ := begins_sample texts' (by decide) (by decide +kernel)
  obtain ⟨r, t', r', u', h, h', hr⟩ := @mergeAll_isolates sampleMerger sampleMerger
    (fun _ => .choose .takeMod) "a.scr" _ sampleFiles loneScript _ _ _ 0 0
    (fun _ => ⟨by simp, by rintro _ ⟨⟩; rfl⟩) rfl rfl hbegins hbegins' halike
  rw [sampleRun_of_ends h] at hcomes
  rw [sampleRun_of_ends h'] at hcomes'
  obtain ⟨rfl, -⟩ | ⟨rfl, -⟩ | ⟨rfl, rfl, hplace, -, hconflicts⟩ := hr
  · cases hcomes
  · cases hcomes'
  · exact ⟨t', u', h, h', Option.some.inj hcomes, hplace, hconflicts⟩

/-- The other file of the sample by itself. -/
def loneText : Collection := (∅ : Collection).insert "b.txt" [⟨"second.zip", ["extra"]⟩]

/-- A redefinition in one file takes another file from its place and from the report, where it would be in a run
without the first. -/
theorem mergeAll_does_not_isolate :
    sampleMerger.Begins sampleFiles.toList (sampleStart redefiningTexts).progress ∧
      sampleMerger.Begins loneText.toList (sampleStart redefiningTexts).progress ∧
      sampleMerger.BeginAlike sampleMerger "b.txt" [⟨"second.zip", ["extra"]⟩] [⟨"second.zip", ["extra"]⟩]
        (sampleStart redefiningTexts).progress (sampleStart redefiningTexts).progress ∧
      sampleFiles["b.txt"]? = some [⟨"second.zip", ["extra"]⟩] ∧
      loneText["b.txt"]? = some [⟨"second.zip", ["extra"]⟩] ∧
      ∃ t' u', Ends sampleOperator 0 (sampleMerger.mergeAll sampleFiles.toList) (sampleStart redefiningTexts)
          (.error .outOfRange) t' ∧
        Ends sampleOperator 0 (sampleMerger.mergeAll loneText.toList) (sampleStart redefiningTexts) (.ok ()) u' ∧
        t'.progress.report.files.filter (·.name = "b.txt") = [] ∧
        u'.progress.report.files.filter (·.name = "b.txt") =
          [⟨"b.txt", ["second.zip"], .copied "second.zip"⟩] ∧
        t'.progress.disk.isFile (sampleMerger.target "b.txt") = false ∧
        u'.progress.disk.isFile (sampleMerger.target "b.txt") = true := by
  have hcomes : (outOfRange? (sampleRun sampleFiles redefiningTexts)).map (fun s =>
      (s.report.files.filter (·.name = "b.txt"), s.disk.isFile (sampleMerger.target "b.txt"))) =
      some ([], false) := by decide +kernel
  have hcomes' : (ended? (sampleRun loneText redefiningTexts)).map (fun s =>
      (s.report.files.filter (·.name = "b.txt"), s.disk.isFile (sampleMerger.target "b.txt"))) =
      some ([⟨"b.txt", ["second.zip"], .copied "second.zip"⟩], true) := by decide +kernel
  obtain ⟨r, t', h⟩ := exists_ends sampleOperator 0 (sampleMerger.mergeAll sampleFiles.toList)
    (sampleStart redefiningTexts)
  obtain ⟨r', u', h'⟩ := exists_ends sampleOperator 0 (sampleMerger.mergeAll loneText.toList)
    (sampleStart redefiningTexts)
  rw [sampleRun_of_ends h] at hcomes
  rw [sampleRun_of_ends h'] at hcomes'
  obtain ⟨s, hs, hcomes⟩ := Option.map_eq_some_iff.1 hcomes
  obtain ⟨rfl, rfl⟩ := outOfRange?_eq_some hs
  obtain ⟨u, hu, hcomes'⟩ := Option.map_eq_some_iff.1 hcomes'
  obtain ⟨rfl, rfl⟩ := ended?_eq_some hu
  obtain ⟨hfiles, hplace⟩ := Prod.mk.inj hcomes
  obtain ⟨hfiles', hplace'⟩ := Prod.mk.inj hcomes'
  exact ⟨begins_sample _ (by decide) (by decide +kernel), begins_sample _ (by decide) (by decide +kernel),
    ⟨rfl, rfl, rfl, rfl⟩, rfl, rfl, t', u', h, h', hfiles, hfiles', hplace, hplace'⟩

end Sample

end ModWeave.FileMerger
