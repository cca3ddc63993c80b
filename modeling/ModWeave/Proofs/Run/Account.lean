import ModWeave.Proofs.Run.Staging

/-!
The account that a run gives of itself. Its report has an entry for each file, its summary counts the entries,
and its conflict reports are those of the merged files, as many as the entry of each file says.
-/
namespace ModWeave

namespace FileAction

/-- Whether a copy was put in the file's place because there was nothing to merge, or no way to merge it. -/
def isCopy : FileAction → Bool
  | copied _ | identical _ | lastWins _ | parseFallback .. => true
  | merged _ | failed .. => false

def isCleanMerge : FileAction → Bool
  | merged conflicts => conflicts == 0
  | _ => false

def isMergeWithConflicts : FileAction → Bool
  | merged conflicts => conflicts != 0
  | _ => false

def isFailed : FileAction → Bool
  | failed .. => true
  | _ => false

/-- How many conflicts the action states. -/
def conflicts : FileAction → Nat
  | merged conflicts => conflicts
  | _ => 0

end FileAction

namespace Summary

/-- Whether the counts are those of some actions. -/
structure Counts (s : Summary) (actions : List FileAction) : Prop where
  processed : s.processed = actions.length
  copied : s.copied = actions.countP FileAction.isCopy
  merged : s.merged = actions.countP FileAction.isCleanMerge
  mergedWithConflicts : s.mergedWithConflicts = actions.countP FileAction.isMergeWithConflicts
  failed : s.failed = actions.countP FileAction.isFailed

variable {s : Summary} {actions : List FileAction}

theorem Counts.none : Summary.none.Counts [] := ⟨rfl, rfl, rfl, rfl, rfl⟩

theorem Counts.record (h : s.Counts actions) (a : FileAction) : (s.record a).Counts (actions ++ [a]) := by
  obtain ⟨hprocessed, hcopied, hmerged, hconflicts, hfailed⟩ := h
  match a with
  | .copied _ | .identical _ | .lastWins _ | .parseFallback .. | .merged 0 | .merged (n + 1) | .failed .. =>
    constructor <;>
      simp [Summary.record, FileAction.isCopy, FileAction.isCleanMerge, FileAction.isMergeWithConflicts,
        FileAction.isFailed, hprocessed, hcopied, hmerged, hconflicts, hfailed]

theorem Counts.foldl (h : s.Counts actions) (more : List FileAction) :
    (more.foldl Summary.record s).Counts (actions ++ more) := by
  induction more generalizing s actions with
  | nil => simpa using h
  | cons a rest ih => simpa using ih (h.record a)

/-- An action is of one kind. -/
theorem length_eq_countP (actions : List FileAction) : actions.length =
    actions.countP FileAction.isCopy + actions.countP FileAction.isCleanMerge +
      actions.countP FileAction.isMergeWithConflicts + actions.countP FileAction.isFailed := by
  induction actions with
  | nil => rfl
  | cons a rest ih =>
    match a with
    | .copied _ | .identical _ | .lastWins _ | .parseFallback .. | .merged 0 | .merged (n + 1) | .failed .. =>
      simp [List.countP_cons, FileAction.isCopy, FileAction.isCleanMerge, FileAction.isMergeWithConflicts,
        FileAction.isFailed]
      omega

theorem Counts.total (h : s.Counts actions) :
    s.processed = s.copied + s.merged + s.mergedWithConflicts + s.failed := by
  rw [h.processed, h.copied, h.merged, h.mergedWithConflicts, h.failed, length_eq_countP]

end Summary

/-- Whether a report accounts for files: an entry for each in order of their names, a summary that counts the
entries, and of every file as many conflict reports as its entry states, file by file. -/
structure Report.AddsUp (r : Report) (files : List (String × List ModFile)) : Prop where
  entries : r.files.map (fun f => (f.name, f.sources)) = files.map fun f => (f.1, f.2.map (·.source))
  ascending : (r.files.map FileReport.name).Pairwise (· < ·)
  counts : r.summary.Counts (r.files.map FileReport.action)
  total : r.summary.processed =
    r.summary.copied + r.summary.merged + r.summary.mergedWithConflicts + r.summary.failed
  conflicts : r.conflicts.map (·.names.file) =
    r.files.flatMap fun f => List.replicate f.action.conflicts f.name

namespace FileMerger

variable {m : FileMerger} {operator : Operator} {file : String} {files : List (String × List ModFile)}
  {results : List FileResult} {s s' : Progress} {d : Disk} {copies : List ModFile} {action : FileAction}
  {records : List ConflictReport} {staged : Option Content}

/-- A file has the records that its action states, all under its name. -/
theorem Outcome.map_names_file (h : m.Outcome operator d file copies action records staged) :
    records.map (·.names.file) = List.replicate action.conflicts file := by
  cases h with
  | merged _ _ hfolds =>
    refine List.eq_replicate_iff.2 ⟨List.length_map _, fun name hname => ?_⟩
    obtain ⟨c, hc, rfl⟩ := List.mem_map.1 hname
    exact hfolds.names_file (by simp) c hc
  | _ => rfl

/-- What is known of each result. A file's copies are read when the files before it are in their places. -/
theorem Results.outcomes (h : m.Results operator s files results s') :
    List.Forall₂ (fun f res => res.entry.name = f.1 ∧ res.entry.sources = f.2.map (·.source) ∧
      ∃ s₀ : Progress, s.KeepsBut (files.map fun f => m.target f.1) s₀ ∧
        m.Outcome operator s₀.disk f.1 f.2 res.entry.action res.records res.staged) files results := by
  induction h with
  | nil => exact .nil
  | cons hmakes _ ih =>
    obtain ⟨s₀, hkeeps, houtcome⟩ := hmakes.outcome
    refine .cons ⟨rfl, rfl, s₀, hkeeps.mono (by simp), houtcome⟩ (ih.imp ?_)
    rintro f res ⟨hname, hsources, s₀, hkeeps, houtcome⟩
    exact ⟨hname, hsources, s₀, hmakes.keeps.trans hkeeps.of_report, houtcome⟩

section New

variable {base output started : String} {mods : List String}

theorem Results.files_of_new (h : m.Results operator s files results s')
    (hnew : s.report = .new base mods output started) :
    s'.report.files = results.map FileResult.entry := by
  rw [h.report, Report.files_foldl_addResult, hnew]
  rfl

theorem Results.conflicts_of_new (h : m.Results operator s files results s')
    (hnew : s.report = .new base mods output started) :
    s'.report.conflicts = results.flatMap FileResult.records := by
  rw [h.report, Report.conflicts_foldl_addResult, hnew]
  rfl

/-- The report of all files adds up. -/
theorem Results.addsUp (h : m.Results operator s files results s')
    (hfiles : (files.map Prod.fst).Pairwise (· < ·)) (hnew : s.report = .new base mods output started) :
    s'.report.AddsUp files := by
  have hentries := h.files_of_new hnew
  have hcounts : s'.report.summary.Counts (s'.report.files.map FileReport.action) := by
    rw [hentries, List.map_map, h.report, Report.summary_foldl_addResult, hnew]
    exact Summary.Counts.none.foldl _
  have htold : s'.report.files.map (fun f => (f.name, f.sources)) =
      files.map fun f => (f.1, f.2.map (·.source)) := by
    rw [hentries, List.map_map, eq_comm, ← List.forall₂_eq_eq_eq, List.forall₂_map_left_iff,
      List.forall₂_map_right_iff]
    exact h.outcomes.imp fun f res ⟨hname, hsources, _⟩ => Prod.ext hname.symm hsources.symm
  refine ⟨htold, ?_, hcounts, hcounts.total, ?_⟩
  · have hnames := congrArg (List.map Prod.fst) htold
    rw [List.map_map, List.map_map] at hnames
    exact hnames ▸ hfiles
  · rw [h.conflicts_of_new hnew, hentries, List.map_flatMap, List.flatMap_map]
    refine List.flatMap_congr fun res hres => ?_
    obtain ⟨f, -, hname, -, _, -, houtcome⟩ := exists_of_forall₂_right h.outcomes hres
    rw [houtcome.map_names_file, hname]

end New

/-- **The report of a run adds up**, whenever the run comes to its end. The operator may end a run before;
otherwise only a script that redefines something keeps it from its end. -/
theorem mergeAll_report_adds_up {m : FileMerger} {files : Collection} {t : Moment} (operator : Operator)
    (time : Nat) {base output started : String} {mods : List String}
    (hnew : t.progress.report = .new base mods output started) :
    ∃ r t', Ends operator time (m.mergeAll files.toList) t r t' ∧
      ((r = .error .aborted ∧ t'.IsAborted) ∨
        (r = .error .outOfRange ∧ ∃ f ∈ files.toList, ∃ s : Progress,
          t.progress.KeepsBut (files.toList.map fun f => m.target f.1) s ∧
            m.ReadsRedefinition s.disk f.1 f.2) ∨
        r = .ok () ∧ t'.progress.report.AddsUp files.toList ∧ ∃ results : List FileResult,
          t'.progress.report.files = results.map FileResult.entry ∧
          t'.progress.report.conflicts = results.flatMap FileResult.records ∧
          List.Forall₂ (fun f res => ∃ s : Progress,
            t.progress.KeepsBut (files.toList.map fun f => m.target f.1) s ∧
              m.Outcome operator s.disk f.1 f.2 res.entry.action res.records res.staged)
            files.toList results) := by
  have hascending : (files.toList.map Prod.fst).Pairwise (· < ·) := by
    rw [Std.TreeMap.map_fst_toList_eq_keys]
    exact (Std.TreeMap.ordered_keys (t := files)).imp fun h => compareOfLessAndEq_eq_lt.1 h
  obtain ⟨r, t', h⟩ := exists_ends operator time (m.mergeAll files.toList) t
  refine ⟨r, t', h, ?_⟩
  obtain hr | hr | ⟨hr, results, hresults⟩ := h.mergeAll_cases
  · exact .inl hr
  · exact .inr (.inl hr)
  · exact .inr (.inr ⟨hr, hresults.addsUp hascending hnew, results, hresults.files_of_new hnew,
      hresults.conflicts_of_new hnew, hresults.outcomes.imp fun f res h => h.2.2⟩)

section Sample

theorem mergeAll_report_adds_up_of_a_conflict :
    ∃ t', Ends sampleOperator 0 (sampleMerger.mergeAll sampleFiles.toList)
        (sampleStart [("first", "f(1);"), ("second", "f(2);"), ("extra", "b")]) (.ok ()) t' ∧
      t'.progress.report.AddsUp sampleFiles.toList ∧ t'.progress.report.summary = ⟨2, 1, 0, 1, 0⟩ := by
  let texts := [("first", "f(1);"), ("second", "f(2);"), ("extra", "b")]
  have hcomes : (ended? (sampleRun sampleFiles texts)).map (·.report.summary) = some ⟨2, 1, 0, 1, 0⟩ := by
    decide +kernel
  obtain ⟨r, t', hends, hr⟩ := @mergeAll_report_adds_up sampleMerger sampleFiles (sampleStart texts)
    sampleOperator 0 "game.zip" "out.zip" "" ["first.zip", "second.zip"] rfl
  rw [sampleRun_of_ends hends] at hcomes
  obtain ⟨rfl, -⟩ | ⟨rfl, -⟩ | ⟨rfl, hadds, -⟩ := hr
  · cases hcomes
  · cases hcomes
  · exact ⟨t', hends, hadds, Option.some.inj hcomes⟩

/-- A run that a redefinition keeps from its end is not ended by the operator, and its report has nothing of
its files. -/
theorem mergeAll_reports_nothing :
    ∃ r t', Ends sampleOperator 0 (sampleMerger.mergeAll sampleFiles.toList) (sampleStart redefiningTexts) r t' ∧
      r ≠ .error .aborted ∧ sampleFiles.toList.length = 2 ∧ t'.progress.report.files.length = 0 ∧
      ¬ t'.progress.report.AddsUp sampleFiles.toList := by
  have hcomes : (outOfRange? (sampleRun sampleFiles redefiningTexts)).map (·.report.files) = some [] := by
    decide +kernel
  have htwo : sampleFiles.toList.length = 2 := rfl
  obtain ⟨r, t', hends⟩ := exists_ends sampleOperator 0 (sampleMerger.mergeAll sampleFiles.toList)
    (sampleStart redefiningTexts)
  rw [sampleRun_of_ends hends] at hcomes
  obtain ⟨s, hs, hfiles⟩ := Option.map_eq_some_iff.1 hcomes
  obtain ⟨rfl, rfl⟩ := outOfRange?_eq_some hs
  replace hfiles : t'.progress.report.files = [] := hfiles
  refine ⟨_, t', hends, by simp, htwo, by rw [hfiles]; rfl, fun hadds => ?_⟩
  have hlength := congrArg List.length hadds.entries
  rw [List.length_map, List.length_map, hfiles, htwo] at hlength
  cases hlength

end Sample

end FileMerger

end ModWeave
