import ModWeave.Proofs.Run.Transcript
import ModWeave.Proofs.Run.Staging

/-!
The decisions of a run. In each file the copies that differ are compared, where they can be read, and every
record of every comparison is decided in order, up to where the work on the file ends. What was decided stays
decided when the file fails: the transcript of a run is that of its files, one after the other.
-/
namespace ModWeave

/-- What was decided in a file, and how the work on it ended. -/
structure FileDecisions where
  log : List Decision
  result : Except FileFailure FileAction

/-- The decisions that a file reports, which it does once it is merged. -/
def FileDecisions.reported (f : FileDecisions) : List Decision :=
  match f.result with
  | .ok (.merged _) => f.log
  | _ => []

/-- How a decision is to be reported: the record and its choice, and that it was automatic exactly when the
operator was asked nothing about it. -/
structure Decision.ReportedAs (x : Decision) (r : ConflictReport) : Prop where
  names : r.names = x.record.names
  signature : r.signature = x.record.signature
  location : r.location = x.record.location
  typeName : r.typeName = x.record.typeName
  baseLine : r.baseLine = x.record.base.node.line
  modLine : r.modLine = x.record.mod.map fun e => e.node.line
  choice : r.choice = some x.choice
  automatic : r.automatic = true ↔ x.exchange? = none

theorem Decision.reportedAs_report (x : Decision) : x.ReportedAs x.report := by
  refine ⟨rfl, rfl, rfl, rfl, rfl, rfl, rfl, ?_⟩
  change x.automatic = true ↔ _
  simp [exchange?]

/-- Whether work failed at a record without a choice. -/
def FileFailure.IsUnresolved (e : FileFailure) : Prop := ∃ file signature, e = .merge (.unresolved file signature)

namespace FileMerger

/-- What there is to compare for a file: the first copy, and the others that are merged into it. -/
def compared? (m : FileMerger) (file : String) (copies : List ModFile) (d : Disk) :
    Option (Language × Merged × List (String × Tree)) :=
  match copies with
  | first :: second :: rest =>
    match d.allIdentical? first.path ((second :: rest).map (·.path)), m.settings.language? file with
    | some false, some language =>
      match d.readTrees? language (first :: second :: rest) with
      | some (.ok ((source, tree) :: trees)) => some (language, ⟨tree, source, []⟩, trees)
      | _ => none
    | _, _ => none
  | _ => none

/-- The work on a file, with what was decided in it. -/
inductive Decides (m : FileMerger) (operator : Operator) (time : Nat) (t : Moment) (file : String)
    (copies : List ModFile) : FileDecisions → Moment → Prop
  | uncompared {r : Except FileFailure FileAction} {t' : Moment}
      (hends : Ends operator time (m.mergeFile file copies) t r t')
      (hnone : m.compared? file copies t.progress.disk = none) : Decides m operator time t file copies ⟨[], r⟩ t'
  | compared {language : Language} {so : Merged} {mods : List (String × Tree)} {log : List Decision}
      {q : Except FileFailure (Except Unparsed Merged)} {r : Except FileFailure FileAction} {t₁ t' : Moment}
      (hends : Ends operator time (m.mergeFile file copies) t r t')
      (hcompared : m.compared? file copies t.progress.disk = some (language, so, mods))
      (hmerges : MergesUntil operator m.settings file language
        (t.progress.base.tree t.progress.disk m.now file language).1.toOption.join
        ⟨m.consulted file language t.progress, t.past⟩ so mods log q t₁) :
      Decides m operator time t file copies ⟨log, r⟩ t'

/-- The decisions of a run over files, up to where it ends. -/
inductive DecidesAll (m : FileMerger) (operator : Operator) (time : Nat) :
    Moment → List (String × List ModFile) → List FileDecisions → Moment → Prop
  | nil {t : Moment} : DecidesAll m operator time t [] [] t
  | ended {t t₁ t' : Moment} {file : String} {copies : List ModFile} {rest : List (String × List ModFile)}
      {f : FileDecisions} {e : RunFailure} (hfile : m.Decides operator time t file copies f t₁)
      (hends : Ends operator time (m.mergeAll [(file, copies)]) t (.error e) t') :
      DecidesAll m operator time t ((file, copies) :: rest) [f] t'
  | cons {t t₁ t₂ t' : Moment} {file : String} {copies : List ModFile} {rest : List (String × List ModFile)}
      {f : FileDecisions} {fs : List FileDecisions} (hfile : m.Decides operator time t file copies f t₁)
      (hends : Ends operator time (m.mergeAll [(file, copies)]) t (.ok ()) t₂)
      (hrest : DecidesAll m operator time t₂ rest fs t') :
      DecidesAll m operator time t ((file, copies) :: rest) (f :: fs) t'

end FileMerger

/-- What the work on a file comes to: a transcript of what was decided in it, and its reports. -/
structure Accounts (settings : MergeSettings) (t : Moment) (f : FileDecisions) (events : List Event)
    (t' : Moment) : Prop where
  transcript : Transcript settings t f.log events t'
  conflicts : t'.progress.report.conflicts = t.progress.report.conflicts ++ f.reported.map Decision.report
  resolved : ∀ e, f.result = .error e → ¬e.IsUnresolved

/-- What the work on files, one after the other, comes to. -/
structure AccountsAll (settings : MergeSettings) (t : Moment) (fs : List FileDecisions) (events : List Event)
    (t' : Moment) : Prop where
  transcript : Transcript settings t (fs.flatMap FileDecisions.log) events t'
  conflicts : t'.progress.report.conflicts =
    t.progress.report.conflicts ++ (fs.flatMap FileDecisions.reported).map Decision.report
  resolved : ∀ f ∈ fs, ∀ e, f.result = .error e → ¬e.IsUnresolved

section MergesUntil

variable {operator : Operator} {settings : MergeSettings} {file : String} {language : Language}
  {vanilla : Option Tree} {t t' : Moment} {so merged : Merged} {mods : List (String × Tree)}
  {log : List Decision} {r : Except FileFailure (Except Unparsed Merged)}

/-- The records of a merge are those that were decided. -/
theorem MergesUntil.conflicts_eq (h : MergesUntil operator settings file language vanilla t so mods log r t')
    (hr : r = .ok (.ok merged)) : merged.conflicts = so.conflicts ++ log.map Decision.report := by
  induction h with
  | nil =>
    cases hr
    simp
  | outOfRange => cases hr
  | unanswered => cases hr
  | unparsed => cases hr
  | cons _ _ _ _ _ ih => rw [ih hr, List.map_append, List.append_assoc]

theorem MergesUntil.not_isUnresolved {e : FileFailure}
    (h : MergesUntil operator settings file language vanilla t so mods log r t') (hr : r = .error e) :
    ¬e.IsUnresolved := by
  rintro ⟨_, _, rfl⟩
  induction h with
  | nil => cases hr
  | outOfRange => cases hr
  | unanswered _ hsettles =>
    cases hr
    obtain ⟨he, -⟩ | ⟨_, he⟩ := hsettles.isRefusal rfl
    · cases he
    · cases he
  | unparsed => cases hr
  | cons _ _ _ _ _ ih => exact ih hr

end MergesUntil

namespace Accounts

variable {settings : MergeSettings} {t t₁ t' : Moment} {log : List Decision} {events : List Event}

/-- When all is decided, the operator is told things at most. -/
theorem of_transcript {r : Except FileFailure FileAction} (h : Transcript settings t log events t₁)
    (htells : t₁.Tells t')
    (hconflicts : t'.progress.report.conflicts =
      t.progress.report.conflicts ++ (FileDecisions.reported ⟨log, r⟩).map Decision.report)
    (hresolved : ∀ e, r = .error e → ¬e.IsUnresolved) : ∃ events, Accounts settings t ⟨log, r⟩ events t' := by
  obtain ⟨told, htold⟩ : ∃ told, Transcript settings t₁ [] told t' :=
    Transcript.of_tells htells
  exact ⟨told ++ events, by simpa using h.trans htold, hconflicts, hresolved⟩

/-- Work that fails reports nothing, whatever was decided in it. -/
theorem of_failure {e : FileFailure} (h : Transcript settings t log events t₁) (htells : t₁.Tells t')
    (hconflicts : t'.progress.report.conflicts = t.progress.report.conflicts) (hresolved : ¬e.IsUnresolved) :
    ∃ events, Accounts settings t ⟨log, .error e⟩ events t' := by
  refine of_transcript h htells (hconflicts.trans (List.append_nil _).symm) ?_
  rintro _ ⟨⟩
  exact hresolved

end Accounts

namespace AccountsAll

variable {settings : MergeSettings} {t t₁ t' : Moment} {f : FileDecisions} {fs : List FileDecisions}
  {events events' : List Event}

theorem nil (t : Moment) : AccountsAll settings t [] [] t := ⟨.refl t, by simp, by simp⟩

theorem cons (h : Accounts settings t f events t₁) (hrest : AccountsAll settings t₁ fs events' t') :
    AccountsAll settings t (f :: fs) (events' ++ events) t' where
  transcript := h.transcript.trans hrest.transcript
  conflicts := by
    rw [hrest.conflicts, h.conflicts, List.flatMap_cons, List.map_append, List.append_assoc]
  resolved := List.forall_mem_cons.2 ⟨h.resolved, hrest.resolved⟩

end AccountsAll

namespace Ends

open FileMerger

variable {m : FileMerger} {operator : Operator} {time : Nat} {file : String} {copies : List ModFile}
  {language : Language} {t t' : Moment} {r : Except FileFailure FileAction}

theorem put_tells {write? : Disk → Path → Option Disk} {q : Except FileFailure Unit}
    (h : Ends operator time (m.put file write?) t q t') :
    t.Tells t' ∧ t'.progress.report.conflicts = t.progress.report.conflicts ∧
      ∀ e, q = .error e → ¬e.IsUnresolved := by
  obtain ⟨e, rfl, hdisk, rfl⟩ | ⟨d, -, rfl, rfl⟩ := h.put_cases
  · refine ⟨.refl _, rfl, ?_⟩
    rintro _ ⟨⟩ ⟨_, _, rfl⟩
    obtain he | he := hdisk
    · cases he
    · cases he
  · exact ⟨⟨rfl, [], rfl⟩, rfl, by simp⟩

/-- Nothing more is decided when the copy of one mod is taken. -/
theorem stage_accounts {copy : ModFile} {n : Notice} {action : FileAction} {t₁ : Moment} {log : List Decision}
    {events : List Event} (htranscript : Transcript m.settings t log events t₁)
    (hconflicts : t₁.progress.report.conflicts = t.progress.report.conflicts)
    (haction : FileDecisions.reported ⟨log, .ok action⟩ = [])
    (h : Ends operator time (do m.stage file copy; FileWork.tell n; return action) t₁ r t') :
    ∃ events, Accounts m.settings t ⟨log, r⟩ events t' := by
  obtain ⟨e, hstage, rfl⟩ | ⟨_, t₂, hstage, h⟩ := Ends.bind_cases h
  · obtain ⟨htells, heq, hresolved⟩ := put_tells hstage
    exact Accounts.of_failure htranscript htells (heq.trans hconflicts) (hresolved e rfl)
  · replace h := ends_tell_iff.1 h
    obtain ⟨rfl, rfl⟩ := ends_pure_iff.1 h
    obtain ⟨⟨hsession, ns, hpast⟩, heq, -⟩ := put_tells hstage
    refine Accounts.of_transcript htranscript ⟨hsession, n :: ns, congrArg _ hpast⟩ ?_ (by simp)
    rw [haction, List.map_nil, List.append_nil]
    exact heq.trans hconflicts

/-- The copies of a file are compared if they can all be read. What is decided then is reported once they are
merged. -/
theorem mergeStructured_accounts {first : ModFile} {rest : List ModFile}
    (h : Ends operator time (m.mergeStructured file language first rest) t r t') :
    ((∀ x trees, t.progress.disk.readTrees? language (first :: rest) ≠ some (.ok (x :: trees))) ∧
        ∃ events, Accounts m.settings t ⟨[], r⟩ events t') ∨
      ∃ source tree trees log q t₁,
        t.progress.disk.readTrees? language (first :: rest) = some (.ok ((source, tree) :: trees)) ∧
        MergesUntil operator m.settings file language
          (t.progress.base.tree t.progress.disk m.now file language).1.toOption.join
          ⟨m.consulted file language t.progress, t.past⟩ ⟨tree, source, []⟩ trees log q t₁ ∧
        ∃ events, Accounts m.settings t ⟨log, r⟩ events t' := by
  have hof {source : String} {tree : Tree} {trees : List (String × Tree)} {log : List Decision}
      {q : Except FileFailure (Except Unparsed Merged)} {t₁ : Moment}
      (hlog : MergesUntil operator m.settings file language
          (t.progress.base.tree t.progress.disk m.now file language).1.toOption.join
          ⟨m.consulted file language t.progress, t.past⟩ ⟨tree, source, []⟩ trees log q t₁) :
      (∃ events, Transcript m.settings t log events t₁) ∧
        t₁.progress.report.conflicts = t.progress.report.conflicts := by
    obtain ⟨events, h⟩ := hlog.transcript
    exact ⟨⟨events, h.past, h.runDefault, h.exchanges, h.follows, h.silent, h.once⟩, by
      rw [hlog.progress_eq]; rfl⟩
  obtain ⟨e, hcopies, rfl⟩ | ⟨q, t₁, hcopies, h⟩ := Ends.bind_cases h
  · obtain ⟨hread, he, rfl⟩ | ⟨hread, he, rfl⟩ | ⟨u, -, he, -⟩ | ⟨source, tree, trees, log, hread, hlog⟩ :=
      hcopies.mergeCopies_until
    · cases he
      exact .inl ⟨by simp [hread],
        Accounts.of_failure (.refl _) (.refl _) rfl (by rintro ⟨_, _, he⟩; cases he)⟩
    · cases he
      exact .inl ⟨by simp [hread],
        Accounts.of_failure (.refl _) (.refl _) rfl (by rintro ⟨_, _, he⟩; cases he)⟩
    · cases he
    · obtain ⟨⟨events, htranscript⟩, hconflicts⟩ := hof hlog
      exact .inr ⟨source, tree, trees, log, _, _, hread, hlog,
        Accounts.of_failure htranscript (.refl _) hconflicts (hlog.not_isUnresolved rfl)⟩
  · obtain ⟨-, hq, -⟩ | ⟨-, hq, -⟩ | ⟨u, hread, hq, rfl⟩ | ⟨source, tree, trees, log, hread, hlog⟩ :=
      hcopies.mergeCopies_until
    · cases hq
    · cases hq
    · cases hq
      exact .inl ⟨by simp [hread], stage_accounts (.refl _) rfl rfl h⟩
    · obtain ⟨⟨events, htranscript⟩, hconflicts⟩ := hof hlog
      refine .inr ⟨source, tree, trees, log, _, _, hread, hlog, ?_⟩
      match q with
      | .error u => exact stage_accounts htranscript hconflicts rfl h
      | .ok merged =>
        dsimp only at h
        obtain ⟨e, hput, rfl⟩ | ⟨_, t₂, hput, h⟩ := Ends.bind_cases h
        · obtain ⟨htells, heq, hresolved⟩ := put_tells hput
          exact Accounts.of_failure htranscript htells (heq.trans hconflicts) (hresolved e rfl)
        · replace h := ends_tell_iff.1 (ends_modify_iff.1 h)
          obtain ⟨rfl, rfl⟩ := ends_pure_iff.1 h
          obtain ⟨⟨hsession, ns, hpast⟩, heq, -⟩ := put_tells hput
          refine Accounts.of_transcript htranscript ⟨hsession, _ :: ns, congrArg _ hpast⟩ ?_ (by simp)
          change t₂.progress.report.conflicts ++ merged.conflicts = _
          rw [heq, hconflicts, hlog.conflicts_eq rfl]
          rfl

/-- Whatever becomes of a file, what is decided in it follows the run's default. -/
theorem mergeFile_accounts (h : Ends operator time (m.mergeFile file copies) t r t') :
    ∃ log events, m.Decides operator time t file copies ⟨log, r⟩ t' ∧
      Accounts m.settings t ⟨log, r⟩ events t' := by
  have hfile := h
  match copies with
  | [] =>
    obtain ⟨rfl, rfl⟩ := ends_throw_iff.1 h
    obtain ⟨events, haccounts⟩ : ∃ events, Accounts m.settings t' ⟨[], .error (.unclaimed file)⟩ events t' :=
      Accounts.of_failure (.refl t') (.refl _) rfl (by rintro ⟨_, _, he⟩; cases he)
    exact ⟨[], events, .uncompared hfile rfl, haccounts⟩
  | [only] =>
    obtain ⟨events, haccounts⟩ := stage_accounts (.refl _) rfl rfl h
    exact ⟨[], events, .uncompared hfile rfl, haccounts⟩
  | first :: second :: rest =>
    obtain ⟨hsame, rfl, rfl⟩ | ⟨same, hsame, h⟩ := (ends_get_iff.1 h).orIo_cases
    · obtain ⟨events, haccounts⟩ : ∃ events, Accounts m.settings t' ⟨[], .error .io⟩ events t' :=
        Accounts.of_failure (.refl t') (.refl _) rfl (by rintro ⟨_, _, he⟩; cases he)
      exact ⟨[], events, .uncompared hfile (by simp only [compared?, hsame]), haccounts⟩
    · split at h
      · next hall =>
        obtain ⟨events, haccounts⟩ := stage_accounts (.refl _) rfl rfl h
        exact ⟨[], events, .uncompared hfile (by simp only [compared?, hsame, hall]), haccounts⟩
      · next hall =>
        rw [Bool.not_eq_true] at hall
        subst hall
        split at h
        · next language hlanguage =>
          obtain ⟨hread, events, haccounts⟩ |
            ⟨source, tree, trees, log, q, t₁, hread, hlog, events, haccounts⟩ := mergeStructured_accounts h
          · refine ⟨[], events, .uncompared hfile ?_, haccounts⟩
            simp only [compared?, hsame, hlanguage]
            split
            · exact absurd ‹_› (hread _ _)
            · rfl
          · refine ⟨log, events, .compared hfile ?_ hlog, haccounts⟩
            simp only [compared?, hsame, hlanguage, hread]
        · next hlanguage =>
          obtain ⟨events, haccounts⟩ := stage_accounts (.refl _) rfl rfl h
          exact ⟨[], events, .uncompared hfile (by simp only [compared?, hsame, hlanguage]), haccounts⟩

/-- The last copy is taken when a file fails, and nothing is decided by that. -/
theorem fallBack_tells {e : FileFailure} {action : FileAction}
    (h : ((m.fallBack file copies e).run t.progress).hold operator time t.past =
      ((action, t'.progress), t'.past)) :
    t.Tells t' ∧ t'.progress.report = t.progress.report := by
  obtain ⟨staged, hrun, hnone, hsome⟩ := m.run_fallBack file copies e t.progress
  rw [hrun] at h
  obtain ⟨hr, hpast⟩ := Prod.mk.inj h
  obtain ⟨-, hprogress⟩ := Prod.mk.inj hr
  have hstaged : staged.2.session = t.progress.session ∧ staged.2.report = t.progress.report := by
    cases hlast : m.stageLast? file copies t.progress.disk with
    | none => rw [hnone hlast]; exact ⟨rfl, rfl⟩
    | some last => rw [hsome last hlast]; exact ⟨rfl, rfl⟩
  rw [hprogress] at hstaged
  exact ⟨⟨hstaged.1, [_], hpast.symm⟩, hstaged.2⟩

/-- The work on one file of a run: what was decided stays, whether the file is made, fails or ends the run. -/
theorem mergeAll_singleton_accounts {q : Except RunFailure Unit}
    (h : Ends operator time (m.mergeAll [(file, copies)]) t q t') :
    ∃ f t₁ events, m.Decides operator time t file copies f t₁ ∧ Accounts m.settings t f events t' := by
  rw [mergeAll] at h
  obtain ⟨_, hmake, rfl⟩ | ⟨r, t₁, hmake, h⟩ := Ends.bind_cases h
  · obtain ⟨_, hr, -⟩ := hmake.lift_cases
    cases hr
  · obtain ⟨_, hr, hmake⟩ := hmake.lift_cases
    cases hr
    replace hmake : Ends operator time (m.mergeFile file copies) t r t₁ := hmake
    obtain ⟨log, events, hdecides, haccounts⟩ := mergeFile_accounts hmake
    have hend (htells : t₁.Tells t') (hreport : t'.progress.report.conflicts = t₁.progress.report.conflicts) :
        ∃ f t₁ events, m.Decides operator time t file copies f t₁ ∧ Accounts m.settings t f events t' := by
      obtain ⟨events, haccounts⟩ := Accounts.of_transcript haccounts.transcript htells
        (hreport.trans haccounts.conflicts) haccounts.resolved
      exact ⟨_, t₁, events, hdecides, haccounts⟩
    cases r with
    | error e =>
      cases hending : e.ending? with
      | some ending =>
        simp only [hending] at h
        obtain ⟨_, hthrow, rfl⟩ | ⟨_, _, hthrow, -⟩ := Ends.bind_cases h
        · obtain ⟨-, rfl⟩ := ends_throw_iff.1 hthrow
          exact hend (.refl _) rfl
        · cases (ends_throw_iff.1 hthrow).1
      | none =>
        simp only [hending] at h
        obtain ⟨_, hback, rfl⟩ | ⟨action, t₂, hback, h⟩ := Ends.bind_cases h
        · obtain ⟨_, hr, -⟩ := hback.lift_cases
          cases hr
        · obtain ⟨_, -, hback⟩ := hback.lift_cases
          obtain ⟨⟨hsession, hpast⟩, hreport⟩ := fallBack_tells hback
          obtain ⟨-, rfl⟩ := ends_pure_iff.1 (ends_modify_iff.1 h)
          refine hend ⟨hsession, hpast⟩ ?_
          rw [← hreport]
          rfl
    | ok action =>
      obtain ⟨_, hpure, rfl⟩ | ⟨_, t₂, hpure, h⟩ := Ends.bind_cases h
      · cases (ends_pure_iff.1 hpure).1
      · obtain ⟨-, rfl⟩ := ends_pure_iff.1 hpure
        obtain ⟨-, rfl⟩ := ends_pure_iff.1 (ends_modify_iff.1 h)
        exact hend ⟨rfl, [], rfl⟩ rfl

end Ends

namespace FileMerger

variable (m : FileMerger) (operator : Operator) (time : Nat)

/-- Files are made one after the other. -/
theorem mergeAll_cons (f : String × List ModFile) (rest : List (String × List ModFile)) :
    m.mergeAll (f :: rest) = m.mergeAll [f] >>= fun _ => m.mergeAll rest := by
  simp only [mergeAll, bind_assoc]
  refine bind_congr fun q => ?_
  cases q with
  | ok action => simp only [bind_assoc, pure_bind]
  | error e => cases hending : e.ending? <;> simp only [hending, bind_assoc, pure_bind]

theorem mergeAll_append (files rest : List (String × List ModFile)) :
    m.mergeAll (files ++ rest) = m.mergeAll files >>= fun _ => m.mergeAll rest := by
  induction files with
  | nil => simp only [List.nil_append, mergeAll, pure_bind]
  | cons f others ih =>
    rw [List.cons_append, mergeAll_cons, ih, m.mergeAll_cons f others, bind_assoc]

variable {m operator time}

/-- The work on all files of a run, up to where it ends. -/
theorem decidesAll_of_ends {files : List (String × List ModFile)} {t t' : Moment} {r : Except RunFailure Unit}
    (h : Ends operator time (m.mergeAll files) t r t') :
    ∃ fs events, m.DecidesAll operator time t files fs t' ∧ AccountsAll m.settings t fs events t' := by
  induction files generalizing t with
  | nil =>
    obtain ⟨rfl, rfl⟩ := ends_pure_iff.1 h
    exact ⟨[], [], .nil, .nil _⟩
  | cons f rest ih =>
    obtain ⟨file, copies⟩ := f
    rw [mergeAll_cons] at h
    obtain ⟨e, hfile, rfl⟩ | ⟨_, t₁, hfile, h⟩ := Ends.bind_cases h
    · obtain ⟨f, t₂, events, hdecides, haccounts⟩ := hfile.mergeAll_singleton_accounts
      exact ⟨[f], _, .ended hdecides hfile, .cons haccounts (.nil _)⟩
    · obtain ⟨f, t₂, events, hdecides, haccounts⟩ := hfile.mergeAll_singleton_accounts
      obtain ⟨fs, events', hrest, hall⟩ := ih h
      exact ⟨f :: fs, _, .cons hdecides hfile hrest, .cons haccounts hall⟩

variable (m operator time)

/-- Over a whole run, each record of each comparison is decided in order: a change that one side made goes to
that side, everything else by the run's default, and to the operator only while there is none. A choice for
all conflicts is the default from then on, past files that fail, and the operator is asked no more. The
records of the files that are merged are reported in order, as automatic when no one was asked about them.
What is settled to be written has a choice, so no file fails for want of one. -/
theorem mergeAll_decides (files : List (String × List ModFile)) (t : Moment) :
    (∃ r t' fs events reports, Ends operator time (m.mergeAll files) t r t' ∧
      m.DecidesAll operator time t files fs t' ∧
      Transcript m.settings t (fs.flatMap FileDecisions.log) events t' ∧
      t'.progress.report.conflicts = t.progress.report.conflicts ++ reports ∧
      List.Forall₂ Decision.ReportedAs (fs.flatMap FileDecisions.reported) reports ∧
      ∀ f ∈ fs, ∀ e, f.result = .error e → ¬e.IsUnresolved) ∧
    ∀ vanilla cs t₁ settled t₂, Ends operator time (settleAll m.settings vanilla cs) t₁ (.ok settled) t₂ →
      ∀ c ∈ settled.map Prod.fst, c.isResolved = true := by
  constructor
  · obtain ⟨r, t', h⟩ := exists_ends operator time (m.mergeAll files) t
    obtain ⟨fs, events, hdecides, haccounts⟩ := decidesAll_of_ends h
    refine ⟨r, t', fs, events, _, h, hdecides, haccounts.transcript, haccounts.conflicts, ?_, haccounts.resolved⟩
    rw [List.forall₂_map_right_iff]
    exact List.forall₂_same.2 fun x _ => x.reportedAs_report
  · intro vanilla cs t₁ settled t₂ h c hc
    obtain ⟨log, _ | e, hlog, hsettled⟩ := h.settleAll_until
    · cases hsettled
      obtain ⟨_, -, choice, rfl⟩ := exists_of_forall₂_right (hlog.settles rfl).resolved hc
      rfl
    · cases hsettled

/-- The operator is asked about the first of two files and takes one side for all, which settles the other
file without asking. -/
theorem mergeAll_decides_two_files :
    let operator : Operator := fun _ _ => .choose .takeAllMod
    let copies : List ModFile := [⟨"first.zip", ["first"]⟩, ⟨"second.zip", ["second"]⟩]
    let start := sampleStart [("first", "f(1);"), ("second", "f(2);")]
    ∃ t' reports events, ∃ fs : List FileDecisions,
      Ends operator 0 (sampleMerger.mergeAll [("a.scr", copies), ("b.scr", copies)]) start (.ok ()) t' ∧
      Transcript sampleMerger.settings start (fs.flatMap FileDecisions.log) events t' ∧
      t'.progress.report.conflicts = reports ∧
      List.Forall₂ Decision.ReportedAs (fs.flatMap FileDecisions.reported) reports ∧
      reports.map (fun r => (r.names.file, r.choice, r.automatic)) =
        [("a.scr", some .takeAllMod, false), ("b.scr", some .takeAllMod, true)] ∧
      (events.filterMap Event.exchange?).map (fun e => (e.1.names.file, e.2)) = [("a.scr", .takeAllMod)] := by
  intro operator copies start
  let held := ((sampleMerger.mergeAll [("a.scr", copies), ("b.scr", copies)]).run.run start.progress).hold
    operator 0 []
  have hcomes : (ended? held.1).map
      (fun s => (s.report.conflicts.map fun r => (r.names.file, r.choice, r.automatic),
        (held.2.filterMap Event.exchange?).map fun e => (e.1.names.file, e.2))) =
      some ([("a.scr", some .takeAllMod, false), ("b.scr", some .takeAllMod, true)],
        [("a.scr", .takeAllMod)]) := by decide +kernel
  obtain ⟨⟨r, t', fs, events, reports, hends, -, htranscript, hconflicts, hreported, -⟩, -⟩ :=
    mergeAll_decides sampleMerger operator 0 [("a.scr", copies), ("b.scr", copies)] start
  have hheld : held = ((r, t'.progress), t'.past) := hends
  rw [hheld] at hcomes
  cases r with
  | error e => cases hcomes
  | ok =>
    obtain ⟨hreports, hevents⟩ := Prod.mk.inj (Option.some.inj hcomes)
    have hpast : t'.past = events := htranscript.past.trans (List.append_nil _)
    replace hconflicts : t'.progress.report.conflicts = reports := hconflicts
    rw [hpast] at hevents
    rw [hconflicts] at hreports
    exact ⟨t', reports, events, fs, hends, htranscript, hconflicts, hreported, hreports, hevents⟩

end FileMerger

end ModWeave
