import ModWeave.Proofs.Run.Outcome

/-!
The results of a run over files. The files are made one after the other, unless the operator ends the run or
a comparison cannot come to its end; and each step leaves what the others have put in their places.
-/
namespace ModWeave

/-- What came of a file: its entry in the report, the records that it reports, and what is in its place. -/
structure FileResult where
  entry : FileReport
  records : List ConflictReport
  staged : Option Content

/-- The report with the result of one more file. -/
def Report.addResult (r : Report) (f : FileResult) : Report := (r.addConflicts f.records).addFile f.entry

theorem Report.files_foldl_addResult (results : List FileResult) (r : Report) :
    (results.foldl addResult r).files = r.files ++ results.map FileResult.entry := by
  induction results generalizing r with
  | nil => simp
  | cons f rest ih => simp [ih, addResult, addFile, addConflicts]

theorem Report.conflicts_foldl_addResult (results : List FileResult) (r : Report) :
    (results.foldl addResult r).conflicts = r.conflicts ++ results.flatMap FileResult.records := by
  induction results generalizing r with
  | nil => simp
  | cons f rest ih => simp [ih, addResult, addFile, addConflicts]

theorem Report.summary_foldl_addResult (results : List FileResult) (r : Report) :
    (results.foldl addResult r).summary =
      (results.map fun f => f.entry.action).foldl Summary.record r.summary := by
  induction results generalizing r with
  | nil => rfl
  | cons f rest ih =>
    rw [List.foldl_cons, ih]
    rfl

namespace FileMerger

/-- Files made in order. -/
inductive Results (m : FileMerger) (operator : Operator) :
    Progress → List (String × List ModFile) → List FileResult → Progress → Prop
  | nil {s : Progress} : Results m operator s [] [] s
  | cons {s s₁ s' : Progress} {file : String} {copies : List ModFile} {action : FileAction}
      {records : List ConflictReport} {staged : Option Content} {rest : List (String × List ModFile)}
      {results : List FileResult} (hmakes : m.Makes operator file copies s action records staged s₁)
      (hrest : Results m operator
        { s₁ with report := s₁.report.addFile ⟨file, copies.map (·.source), action⟩ } rest results s') :
      Results m operator s ((file, copies) :: rest)
        (⟨⟨file, copies.map (·.source), action⟩, records, staged⟩ :: results) s'

variable {m : FileMerger} {operator : Operator} {time : Nat} {file : String} {copies : List ModFile}
  {files rest : List (String × List ModFile)} {results : List FileResult} {s s' : Progress} {t t' : Moment}
  {r : Except RunFailure Unit}

theorem Results.report (h : m.Results operator s files results s') :
    s'.report = results.foldl Report.addResult s.report := by
  induction h with
  | nil => rfl
  | cons hmakes _ ih =>
    rw [ih, hmakes.report]
    rfl

/-- Only the places of the files change. -/
theorem Results.keeps (h : m.Results operator s files results s') :
    s.KeepsBut (files.map fun f => m.target f.1) s' := by
  induction h with
  | nil => exact .refl _
  | cons hmakes _ ih => exact hmakes.keeps.trans ih.of_report

end FileMerger

namespace Ends

open FileMerger

variable {m : FileMerger} {operator : Operator} {time : Nat} {file : String} {copies : List ModFile}
  {files rest : List (String × List ModFile)} {t t' : Moment} {r : Except RunFailure Unit}

/-- One file is made and the others follow, or the run ends and leaves the file's place as it was. -/
theorem mergeAll_cons_cases (h : Ends operator time (m.mergeAll ((file, copies) :: rest)) t r t') :
    ((r = .error .aborted ∧ t'.IsAborted ∨
          r = .error .outOfRange ∧ m.ReadsRedefinition t.progress.disk file copies) ∧
        t.progress.KeepsBut [] t'.progress) ∨
      ∃ action records staged s t₁, m.Makes operator file copies t.progress action records staged s ∧
        t₁.progress = { s with report := s.report.addFile ⟨file, copies.map (·.source), action⟩ } ∧
        Ends operator time (m.mergeAll rest) t₁ r t' := by
  rw [mergeAll] at h
  obtain ⟨_, hmake, rfl⟩ | ⟨q, t₁, hmake, h⟩ := Ends.bind_cases h
  · obtain ⟨_, hr, -⟩ := hmake.lift_cases
    cases hr
  · obtain ⟨_, hq, hmake⟩ := hmake.lift_cases
    cases hq
    replace hmake : Ends operator time (m.mergeFile file copies) t q t₁ := hmake
    obtain ⟨e, rfl, hfails⟩ | ⟨action, records, content, rfl, hmakes⟩ := mergeFile_cases hmake
    · cases hending : e.ending? with
      | some ending =>
        simp only [hending] at h
        obtain ⟨_, hthrow, rfl⟩ | ⟨_, _, hthrow, -⟩ := Ends.bind_cases h
        · obtain ⟨he, rfl⟩ := ends_throw_iff.1 hthrow
          cases he
          refine .inl ⟨?_, hfails.keeps⟩
          unfold FileFailure.ending? at hending
          split at hending
          · cases hending
            exact .inl ⟨rfl, hfails.aborted rfl⟩
          · cases hending
            exact .inr ⟨rfl, hfails.redefinition rfl⟩
          · cases hending
        · cases (ends_throw_iff.1 hthrow).1
      | none =>
        simp only [hending] at h
        obtain ⟨_, hback, rfl⟩ | ⟨action, t₂, hback, h⟩ := Ends.bind_cases h
        · obtain ⟨_, hr, -⟩ := hback.lift_cases
          cases hr
        · obtain ⟨_, hq, hback⟩ := hback.lift_cases
          cases hq
          obtain ⟨staged, hmakes⟩ := fallBack_cases hfails hback
          exact .inr ⟨action, [], staged, t₂.progress, _, hmakes, rfl, ends_modify_iff.1 h⟩
    · obtain ⟨_, hpure, rfl⟩ | ⟨action', t₂, hpure, h⟩ := Ends.bind_cases h
      · cases (ends_pure_iff.1 hpure).1
      · obtain ⟨he, rfl⟩ := ends_pure_iff.1 hpure
        cases he
        exact .inr ⟨action, records, some content, t₂.progress, _, hmakes, rfl, ends_modify_iff.1 h⟩

/-- All files are made in order, or the run ends at one of them: the operator ends it, or a copy redefines
something. -/
theorem mergeAll_cases (h : Ends operator time (m.mergeAll files) t r t') :
    (r = .error .aborted ∧ t'.IsAborted) ∨
      (r = .error .outOfRange ∧ ∃ f ∈ files, ∃ s, t.progress.KeepsBut (files.map fun f => m.target f.1) s ∧
        m.ReadsRedefinition s.disk f.1 f.2) ∨
      r = .ok () ∧ ∃ results, m.Results operator t.progress files results t'.progress := by
  induction files generalizing t with
  | nil =>
    obtain ⟨rfl, rfl⟩ := ends_pure_iff.1 h
    exact .inr (.inr ⟨rfl, [], .nil⟩)
  | cons f rest ih =>
    obtain ⟨file, copies⟩ := f
    obtain ⟨hr | ⟨hr, hreads⟩, -⟩ | ⟨action, records, staged, s, t₁, hmakes, hprogress, h⟩ :=
      mergeAll_cons_cases h
    · exact .inl hr
    · exact .inr (.inl ⟨hr, _, List.mem_cons_self, t.progress, (Progress.KeepsBut.refl _).mono (by simp),
        hreads⟩)
    · have hkeeps : t.progress.KeepsBut [m.target file] t₁.progress := by
        rw [hprogress]
        exact hmakes.keeps.trans (.of_eq rfl rfl)
      obtain hr | ⟨hr, f, hf, s', hkeeps', hreads⟩ | ⟨hr, results, hresults⟩ := ih h
      · exact .inl hr
      · exact .inr (.inl ⟨hr, f, List.mem_cons_of_mem _ hf, s', hkeeps.trans hkeeps', hreads⟩)
      · exact .inr (.inr ⟨hr, _, .cons hmakes (hprogress ▸ hresults)⟩)

/-- However the run ends, only the places of its files change. -/
theorem keeps_of_mergeAll (h : Ends operator time (m.mergeAll files) t r t') :
    t.progress.KeepsBut (files.map fun f => m.target f.1) t'.progress := by
  induction files generalizing t with
  | nil =>
    obtain ⟨-, rfl⟩ := ends_pure_iff.1 h
    exact .refl _
  | cons f rest ih =>
    obtain ⟨-, hkeeps⟩ | ⟨_, _, _, s, t₁, hmakes, hprogress, h⟩ := mergeAll_cons_cases h
    · exact hkeeps.mono (by simp)
    · exact hmakes.keeps.trans (Progress.KeepsBut.of_report (hprogress ▸ ih h))

end Ends

end ModWeave
