import ModWeave.Proofs.Run.Fold
import ModWeave.Proofs.Run.Unmodified

/-!
What becomes of a file: by which action, with which records, and what is put in its place. Each way in
which the work on a file can end is one of these outcomes, or a failure that ends the run.
-/
namespace ModWeave

theorem Report.addConflicts_nil (r : Report) : r.addConflicts [] = r := by
  simp [Report.addConflicts]

theorem Disk.allIdentical?_eq {d d' : Disk} {first other : Path} {paths others : List Path}
    (hfirst : d.read? first = d'.read? other)
    (h : List.Forall₂ (fun a b => d.read? a = d'.read? b) paths others) :
    d.allIdentical? first paths = d'.allIdentical? other others := by
  induction h with
  | nil => rfl
  | cons hsame _ ih => simp only [Disk.allIdentical?, Disk.identical?, hfirst, hsame, ih]

theorem getLast?_cons_eq (first : ModFile) (rest : List ModFile) :
    (first :: rest).getLast? = some (rest.getLastD first) := by
  rw [List.getLast?_cons, List.getLastD_eq_getLast?]

namespace FileMerger

variable {m : FileMerger} {operator : Operator} {file : String} {copies : List ModFile} {d d' : Disk}

/-- What can become of a file whose copies are on a disk: an action, the records that it reports, and what
is put in its place. -/
inductive Outcome (m : FileMerger) (operator : Operator) (d : Disk) (file : String) (copies : List ModFile) :
    FileAction → List ConflictReport → Option Content → Prop
  | copied {only : ModFile} {content : Content} (hcopies : copies = [only])
      (hread : d.read? only.path = some content) :
      Outcome m operator d file copies (.copied only.source) [] (some content)
  | identical {first : ModFile} {rest : List ModFile} {content : Content} (hcopies : copies = first :: rest)
      (hsame : d.allIdentical? first.path (rest.map (·.path)) = some true)
      (hread : d.read? first.path = some content) :
      Outcome m operator d file copies (.identical first.source) [] (some content)
  | lastWins {last : ModFile} {content : Content} (hlanguage : m.settings.language? file = none)
      (hlast : copies.getLast? = some last) (hread : d.read? last.path = some content) :
      Outcome m operator d file copies (.lastWins last.source) [] (some content)
  | parseFallback {language : Language} {last : ModFile} {content : Content} {reason : String}
      (hlanguage : m.settings.language? file = some language) (hlast : copies.getLast? = some last)
      (hread : d.read? last.path = some content) :
      Outcome m operator d file copies (.parseFallback last.source reason) [] (some content)
  /-- All copies can be read, and the fold over them goes through. It starts when the base archive has been
  asked for the game's own file. -/
  | merged {language : Language} {source : String} {tree : Tree} {trees : List (String × Tree)}
      {merged : Merged} {s s' : Moment}
      (hlanguage : m.settings.language? file = some language)
      (hread : d.readTrees? language copies = some (.ok ((source, tree) :: trees)))
      (hfolds : Folds operator m.settings file language
        (s.progress.base.tree s.progress.disk m.now file language).1.toOption.join
        ⟨m.consulted file language s.progress, s.past⟩ ⟨tree, source, []⟩ trees merged s') :
      Outcome m operator d file copies (.merged merged.conflicts.length) merged.conflicts
        (some (.ofText (String.ofList merged.tree.text)))
  | fallback {last : ModFile} {content : Content} {reason : String} (hlast : copies.getLast? = some last)
      (hread : d.read? last.path = some content) :
      Outcome m operator d file copies (.failed reason (some last.source)) [] (some content)
  | lost {reason : String} : Outcome m operator d file copies (.failed reason none) [] none

/-- Only the files at the places of the copies count. -/
theorem Outcome.congr {action : FileAction} {records : List ConflictReport} {staged : Option Content}
    (h : m.Outcome operator d file copies action records staged)
    (hcopies : ∀ copy ∈ copies, d'.read? copy.path = d.read? copy.path) :
    m.Outcome operator d' file copies action records staged := by
  cases h with
  | copied heq hread =>
    subst heq
    exact .copied rfl (by rwa [hcopies _ List.mem_cons_self])
  | identical heq hsame hread =>
    subst heq
    rw [List.forall_mem_cons] at hcopies
    refine .identical rfl ?_ (by rwa [hcopies.1])
    rwa [Disk.allIdentical?_eq hcopies.1 (List.forall₂_same.2 (List.forall_mem_map.2 hcopies.2))]
  | lastWins hlanguage hlast hread =>
    exact .lastWins hlanguage hlast (by rwa [hcopies _ (List.mem_of_getLast? hlast)])
  | parseFallback hlanguage hlast hread =>
    exact .parseFallback hlanguage hlast (by rwa [hcopies _ (List.mem_of_getLast? hlast)])
  | merged hlanguage hread hfolds =>
    exact .merged hlanguage (by rwa [Disk.readTrees?_congr hcopies]) hfolds
  | fallback hlast hread => exact .fallback hlast (by rwa [hcopies _ (List.mem_of_getLast? hlast)])
  | lost => exact .lost

/-- A file is put in its place, and nothing else is done. -/
structure Puts (m : FileMerger) (file : String) (content : Content) (s s' : Progress) : Prop where
  report : s'.report = s.report
  keeps : s.KeepsBut [m.target file] s'
  read? : s'.disk.read? (m.target file) = some content

theorem Puts.of_read? {s : Progress} {content : Content}
    (h : ∀ q, d.read? q = if q = m.target file then some content else s.disk.read? q) :
    m.Puts file content s { s with disk := d } where
  report := rfl
  keeps := ⟨rfl, fun q hq _ => by rw [h, if_neg (by simpa using hq)]⟩
  read? := by rw [h, if_pos rfl]

/-- A file is made: what came of it can be told from its copies, with copies of the base archive's files
on the disk perhaps, and nothing else changes but its place and the report of its records. -/
structure Makes (m : FileMerger) (operator : Operator) (file : String) (copies : List ModFile) (s : Progress)
    (action : FileAction) (records : List ConflictReport) (staged : Option Content) (s' : Progress) :
    Prop where
  outcome : ∃ s₁ : Progress, s.KeepsBut [] s₁ ∧ m.Outcome operator s₁.disk file copies action records staged
  report : s'.report = s.report.addConflicts records
  keeps : s.KeepsBut [m.target file] s'
  read? : ∀ content, staged = some content → s'.disk.read? (m.target file) = some content
  lost : staged = none → s.KeepsBut [] s' ∧ m.stageLast? file copies s'.disk = none

/-- Work on a file fails, and its place stays as it was. -/
structure Fails (m : FileMerger) (file : String) (copies : List ModFile) (s : Progress) (e : FileFailure)
    (t' : Moment) : Prop where
  aborted : e = .aborted → t'.IsAborted
  redefinition : e = .merge .outOfRange → m.ReadsRedefinition s.disk file copies
  report : t'.progress.report = s.report
  keeps : s.KeepsBut [] t'.progress

/-- A failure that ends no run. -/
theorem Fails.of_ending? {s : Progress} {t' : Moment} {e : FileFailure} (h : e.ending? = none)
    (hreport : t'.progress.report = s.report) (hkeeps : s.KeepsBut [] t'.progress) :
    m.Fails file copies s e t' where
  aborted he := by subst he; cases h
  redefinition he := by subst he; cases h
  report := hreport
  keeps := hkeeps

/-- A file is made when it is put in its place and its records are reported. -/
theorem Puts.reports {s s₀ s₁ s' : Progress} {action : FileAction} {records : List ConflictReport}
    {content : Content} (h : m.Puts file content s₁ s') (hkeeps : s.KeepsBut [] s₁)
    (hreport : s₁.report = s.report) (hkeeps₀ : s.KeepsBut [] s₀)
    (houtcome : m.Outcome operator s₀.disk file copies action records (some content)) :
    m.Makes operator file copies s action records (some content)
      { s' with report := s'.report.addConflicts records } where
  outcome := ⟨s₀, hkeeps₀, houtcome⟩
  report := by rw [h.report, hreport]
  keeps := hkeeps.trans (h.keeps.trans (.of_eq rfl rfl))
  read? := by
    rintro _ ⟨⟩
    exact h.read?
  lost := by simp

/-- A file is made by a copy in its place. -/
theorem Puts.makes {s s₁ s' : Progress} {action : FileAction} {content : Content}
    (h : m.Puts file content s₁ s') (hkeeps : s.KeepsBut [] s₁) (hreport : s₁.report = s.report)
    (houtcome : m.Outcome operator s₁.disk file copies action [] (some content)) :
    m.Makes operator file copies s action [] (some content) s' := by
  simpa [Report.addConflicts_nil] using h.reports hkeeps hreport hkeeps houtcome

/-- Making do with the last copy tells what was staged. -/
theorem run_fallBack (m : FileMerger) (file : String) (copies : List ModFile) (e : FileFailure)
    (s : Progress) : ∃ staged : Option String × Progress,
      (m.fallBack file copies e).run s = .tell (.fileFailed file e.message staged.1)
        (.done (.failed e.message staged.1, staged.2)) ∧
      (m.stageLast? file copies s.disk = none → staged = (none, s)) ∧
      ∀ last, m.stageLast? file copies s.disk = some last →
        staged = (some last.1, { s with disk := last.2 }) := by
  refine ⟨_, rfl, fun h => ?_, fun last h => ?_⟩
  · rw [h]
  · rw [h]

end FileMerger

/-- Whether work failed because the disk refused, or could not be asked. -/
def FileFailure.IsOfDisk (e : FileFailure) : Prop := e = .io ∨ e = .zeroInName

theorem FileFailure.IsOfDisk.ending?_eq_none {e : FileFailure} (h : e.IsOfDisk) : e.ending? = none := by
  obtain rfl | rfl := h
  · rfl
  · rfl

namespace Ends

open FileMerger

variable {m : FileMerger} {operator : Operator} {time : Nat} {file : String} {copies : List ModFile}
  {language : Language} {t t' : Moment}

theorem put_cases {write? : Disk → Path → Option Disk} {r : Except FileFailure Unit}
    (h : Ends operator time (m.put file write?) t r t') :
    (∃ e, r = .error e ∧ e.IsOfDisk ∧ t' = t) ∨
      ∃ d, write? t.progress.disk (m.target file) = some d ∧ r = .ok () ∧
        t' = ⟨{ t.progress with disk := d }, t.past⟩ := by
  unfold FileMerger.put at h
  split at h
  · obtain ⟨rfl, rfl⟩ := ends_throw_iff.1 h
    exact .inl ⟨_, rfl, .inr rfl, rfl⟩
  · obtain ⟨rfl, rfl⟩ | hput := h.change_cases
    · exact .inl ⟨_, rfl, .inl rfl, rfl⟩
    · exact .inr hput

/-- A copy is put in the file's place, which is told, or nothing is done. -/
theorem stage_cases {copy : ModFile} {n : Notice} {action : FileAction} {r : Except FileFailure FileAction}
    (h : Ends operator time (do m.stage file copy; FileWork.tell n; return action) t r t') :
    (∃ e, r = .error e ∧ e.ending? = none ∧ t' = t) ∨
      ∃ content, t.progress.disk.read? copy.path = some content ∧ r = .ok action ∧
        m.Puts file content t.progress t'.progress := by
  obtain ⟨e, hstage, rfl⟩ | ⟨_, t₁, hstage, h⟩ := Ends.bind_cases h
  · obtain ⟨_, he, hdisk, rfl⟩ | ⟨_, -, he, -⟩ := put_cases hstage
    · cases he
      exact .inl ⟨e, rfl, hdisk.ending?_eq_none, rfl⟩
    · cases he
  · replace h := ends_tell_iff.1 h
    obtain ⟨rfl, rfl⟩ := ends_pure_iff.1 h
    obtain ⟨_, he, -⟩ | ⟨d, hcopy, -, rfl⟩ := put_cases hstage
    · cases he
    · obtain ⟨content, hread, hput⟩ := Disk.read?_copy? hcopy
      exact .inr ⟨content, hread, rfl, .of_read? hput⟩

/-- What merging the copies of a file comes to, by the trees that can be read. -/
theorem mergeCopies_until {r : Except FileFailure (Except Unparsed Merged)}
    (h : Ends operator time (m.mergeCopies file language copies) t r t') :
    (t.progress.disk.readTrees? language copies = none ∧ r = .error .io ∧ t' = t) ∨
      (t.progress.disk.readTrees? language copies = some (.ok []) ∧ r = .error (.unclaimed file) ∧ t' = t) ∨
      (∃ u, t.progress.disk.readTrees? language copies = some (.error u) ∧ r = .ok (.error u) ∧ t' = t) ∨
      ∃ source tree trees log,
        t.progress.disk.readTrees? language copies = some (.ok ((source, tree) :: trees)) ∧
        MergesUntil operator m.settings file language
          (t.progress.base.tree t.progress.disk m.now file language).1.toOption.join
          ⟨m.consulted file language t.progress, t.past⟩ ⟨tree, source, []⟩ trees log r t' := by
  unfold FileMerger.mergeCopies at h
  obtain ⟨hread, rfl, rfl⟩ | ⟨q, hread, h⟩ := (ends_get_iff.1 h).orIo_cases
  · exact .inl ⟨hread, rfl, rfl⟩
  · match q with
    | .error u =>
      obtain ⟨rfl, rfl⟩ := ends_pure_iff.1 h
      exact .inr (.inr (.inl ⟨u, hread, rfl, rfl⟩))
    | .ok [] =>
      obtain ⟨rfl, rfl⟩ := ends_throw_iff.1 h
      exact .inr (.inl ⟨hread, rfl, rfl⟩)
    | .ok ((source, tree) :: trees) =>
      have hparse (x : String × Tree) (hx : x ∈ (source, tree) :: trees) :
          ∃ text, language.parse text = .ok x.2 := by
        obtain ⟨copy, -, hx⟩ := Disk.exists_copy_of_readTrees? hread hx
        exact Disk.parse_of_readTree? hx
      -- the base archive is asked once, before the first comparison
      replace h : Ends operator time (m.mergeMods file language
          (t.progress.base.tree t.progress.disk m.now file language).1.toOption.join ⟨tree, source, []⟩ trees)
          ⟨m.consulted file language t.progress, t.past⟩ r t' := h
      obtain ⟨log, hlog⟩ := h.mergeMods_until (hparse _ List.mem_cons_self)
        fun x hx => hparse x (List.mem_cons_of_mem _ hx)
      exact .inr (.inr (.inr ⟨source, tree, trees, log, hread, hlog⟩))

/-- What merging the copies of a file comes to. Nothing on the disk changes but copies of the base archive's
files. -/
theorem mergeCopies_cases {r : Except FileFailure (Except Unparsed Merged)}
    (h : Ends operator time (m.mergeCopies file language copies) t r t') :
    t'.progress.report = t.progress.report ∧ t.progress.KeepsBut [] t'.progress ∧
      ((∃ e, r = .error e ∧ (e = .aborted → t'.IsAborted) ∧ (e = .merge .outOfRange → ∃ copy ∈ copies, ∃ tree,
          t.progress.disk.readTree? language copy.path = some (.ok tree) ∧ language.Redefines tree)) ∨
        (∃ u, r = .ok (.error u)) ∨
        ∃ merged source tree trees, r = .ok (.ok merged) ∧
          t.progress.disk.readTrees? language copies = some (.ok ((source, tree) :: trees)) ∧
          Folds operator m.settings file language
            (t.progress.base.tree t.progress.disk m.now file language).1.toOption.join
            ⟨m.consulted file language t.progress, t.past⟩ ⟨tree, source, []⟩ trees merged t') := by
  obtain ⟨-, rfl, rfl⟩ | ⟨-, rfl, rfl⟩ | ⟨u, -, rfl, rfl⟩ | ⟨source, tree, trees, log, hread, hlog⟩ :=
    h.mergeCopies_until
  · exact ⟨rfl, .refl _, .inl ⟨_, rfl, by simp, by simp⟩⟩
  · exact ⟨rfl, .refl _, .inl ⟨_, rfl, by simp, by simp⟩⟩
  · exact ⟨rfl, .refl _, .inr (.inl ⟨u, rfl⟩)⟩
  · have hprogress := hlog.progress_eq
    obtain ⟨-, hfolder, hspares⟩ := t.progress.base.keeps_tree t.progress.disk m.now file language
    refine ⟨by rw [hprogress]; rfl, ⟨by rw [hprogress]; exact hfolder, fun q _ hq => ?_⟩, ?_⟩
    · rw [hprogress]
      exact hspares.read? List.not_mem_nil hq
    · match r with
      | .error e =>
        have hmods (x : String × Tree) (hx : x ∈ trees) : ∃ text, language.parse text = .ok x.2 := by
          obtain ⟨copy, -, hx⟩ := Disk.exists_copy_of_readTrees? hread (List.mem_cons_of_mem _ hx)
          exact Disk.parse_of_readTree? hx
        obtain ⟨haborted, hredefines⟩ := FileFailure.cause_of_ending (hlog.cause rfl hmods)
        refine .inl ⟨e, rfl, haborted, fun he => ?_⟩
        obtain ⟨x, hx, hredefines⟩ := hredefines he
        obtain ⟨copy, hcopy, hread⟩ := Disk.exists_copy_of_readTrees? hread (List.mem_cons_of_mem _ hx)
        exact ⟨copy, hcopy, x.2, hread, hredefines⟩
      | .ok (.error u) => exact .inr (.inl ⟨u, rfl⟩)
      | .ok (.ok merged) => exact .inr (.inr ⟨merged, source, tree, trees, rfl, hread, hlog.folds rfl⟩)

/-- A file with a structure to merge by is merged, or made by its last copy. -/
theorem mergeStructured_cases {first : ModFile} {rest : List ModFile} {r : Except FileFailure FileAction}
    (hlanguage : m.settings.language? file = some language)
    (h : Ends operator time (m.mergeStructured file language first rest) t r t') :
    (∃ e, r = .error e ∧ m.Fails file (first :: rest) t.progress e t') ∨
      ∃ action records content, r = .ok action ∧
        m.Makes operator file (first :: rest) t.progress action records (some content) t'.progress := by
  obtain ⟨e, hcopies, rfl⟩ | ⟨q, t₁, hcopies, h⟩ := Ends.bind_cases h
  · obtain ⟨hreport, hkeeps, ⟨_, he, haborted, hwhy⟩ | ⟨_, he⟩ | ⟨_, _, _, _, he, -⟩⟩ :=
      mergeCopies_cases hcopies
    · cases he
      refine .inl ⟨e, rfl, haborted, fun he => ?_, hreport, hkeeps⟩
      obtain ⟨copy, hcopy, tree, hread, hredefines⟩ := hwhy he
      obtain ⟨text, hparse⟩ := Disk.parse_of_readTree? hread
      obtain rfl := hredefines.eq_script hparse
      exact ⟨hlanguage, copy, hcopy, tree, hread, hredefines⟩
    · cases he
    · cases he
  · obtain ⟨hreport, hkeeps, ⟨_, hq, -⟩ | ⟨u, hq⟩ | ⟨merged, source, tree, trees, hq, hread, hfolds⟩⟩ :=
      mergeCopies_cases hcopies
    · cases hq
    · cases hq
      obtain ⟨e, rfl, hgoes, rfl⟩ | ⟨content, hread, rfl, hputs⟩ := stage_cases h
      · exact .inl ⟨e, rfl, .of_ending? hgoes hreport hkeeps⟩
      · exact .inr ⟨_, [], content, rfl,
          hputs.makes hkeeps hreport (.parseFallback hlanguage (getLast?_cons_eq first rest) hread)⟩
    · cases hq
      dsimp only at h
      obtain ⟨e, hput, rfl⟩ | ⟨_, t₂, hput, h⟩ := Ends.bind_cases h
      · obtain ⟨_, he, hdisk, rfl⟩ | ⟨_, -, he, -⟩ := put_cases hput
        · cases he
          exact .inl ⟨e, rfl, .of_ending? hdisk.ending?_eq_none hreport hkeeps⟩
        · cases he
      · replace h := ends_tell_iff.1 (ends_modify_iff.1 h)
        obtain ⟨rfl, rfl⟩ := ends_pure_iff.1 h
        obtain ⟨_, he, -⟩ | ⟨d, hwritten, -, rfl⟩ := put_cases hput
        · cases he
        · have hputs : m.Puts file _ t₁.progress _ := .of_read? (Disk.read?_writeText? hwritten)
          exact .inr ⟨_, merged.conflicts, _, rfl,
            hputs.reports hkeeps hreport (.refl _) (.merged hlanguage hread hfolds)⟩

/-- Each way in which the work on a file can end. -/
theorem mergeFile_cases {r : Except FileFailure FileAction}
    (h : Ends operator time (m.mergeFile file copies) t r t') :
    (∃ e, r = .error e ∧ m.Fails file copies t.progress e t') ∨
      ∃ action records content, r = .ok action ∧
        m.Makes operator file copies t.progress action records (some content) t'.progress := by
  match copies with
  | [] =>
    obtain ⟨rfl, rfl⟩ := ends_throw_iff.1 h
    exact .inl ⟨_, rfl, .of_ending? rfl rfl (.refl _)⟩
  | [only] =>
    obtain ⟨e, rfl, hgoes, rfl⟩ | ⟨content, hread, rfl, hputs⟩ := stage_cases h
    · exact .inl ⟨e, rfl, .of_ending? hgoes rfl (.refl _)⟩
    · exact .inr ⟨_, [], content, rfl, hputs.makes (.refl _) rfl (.copied rfl hread)⟩
  | first :: second :: rest =>
    obtain ⟨-, rfl, rfl⟩ | ⟨same, hsame, h⟩ := (ends_get_iff.1 h).orIo_cases
    · exact .inl ⟨_, rfl, .of_ending? rfl rfl (.refl _)⟩
    · split at h
      · next hall =>
        obtain ⟨e, rfl, hgoes, rfl⟩ | ⟨content, hread, rfl, hputs⟩ := stage_cases h
        · exact .inl ⟨e, rfl, .of_ending? hgoes rfl (.refl _)⟩
        · exact .inr ⟨_, [], content, rfl,
            hputs.makes (.refl _) rfl (.identical rfl (hall ▸ hsame) hread)⟩
      · split at h
        · next language hlanguage => exact mergeStructured_cases hlanguage h
        · next hlanguage =>
          obtain ⟨e, rfl, hgoes, rfl⟩ | ⟨content, hread, rfl, hputs⟩ := stage_cases h
          · exact .inl ⟨e, rfl, .of_ending? hgoes rfl (.refl _)⟩
          · exact .inr ⟨_, [], content, rfl,
              hputs.makes (.refl _) rfl (.lastWins hlanguage (getLast?_cons_eq first (second :: rest)) hread)⟩

/-- In the place of a file that could not be made is its last copy, or nothing new. -/
theorem fallBack_cases {e : FileFailure} {s : Progress} {action : FileAction}
    (hfails : m.Fails file copies s e t)
    (h : ((m.fallBack file copies e).run t.progress).hold operator time t.past =
      ((action, t'.progress), t'.past)) :
    ∃ staged, m.Makes operator file copies s action [] staged t'.progress := by
  obtain ⟨staged, hrun, hnone, hsome⟩ := m.run_fallBack file copies e t.progress
  rw [hrun] at h
  obtain ⟨hr, -⟩ := Prod.mk.inj h
  obtain ⟨rfl, hprogress⟩ := Prod.mk.inj hr
  rw [← hprogress]
  cases hlast : m.stageLast? file copies t.progress.disk with
  | none =>
    rw [hnone hlast]
    refine ⟨none, ⟨t.progress, hfails.keeps, .lost⟩, ?_, hfails.keeps.mono (by simp), by simp,
      fun _ => ⟨hfails.keeps, hlast⟩⟩
    rw [Report.addConflicts_nil, hfails.report]
  | some last =>
    rw [hsome last hlast]
    simp only [FileMerger.stageLast?, Option.bind_eq_bind, Option.bind_eq_some_iff] at hlast
    obtain ⟨copy, hcopy, d, hcopied, heq⟩ := hlast
    cases heq
    obtain ⟨content, hread, hput⟩ := Disk.read?_copy? hcopied
    exact ⟨some content, (Puts.of_read? hput).makes hfails.keeps hfails.report (.fallback hcopy hread)⟩

end Ends

end ModWeave
