import ModWeave.Proofs.Run.Decisions

/-!
Work that goes alike in two runs. Where two runs have in common what the work on a file sees of them, it comes
to the same in both and leaves them so. A run held against itself keeps what each of its steps keeps.
-/
namespace ModWeave

/-- Held from two moments on, with operators who go by the record alone, two pieces of work give the same result
and leave the runs related. Their failures are among some. -/
def GoAlike {ε α : Type} (answers : Conflict → Answer) (S : Progress → Progress → Prop) (Fails : ε → Prop)
    (t u : Moment) (x y : ExceptT ε (StateT Progress Dialogue) α) : Prop :=
  ∀ time time' r r' t' u', Ends (fun _ => answers) time x t r t' → Ends (fun _ => answers) time' y u r' u' →
    r = r' ∧ (∀ e, r = .error e → Fails e) ∧ S t'.progress u'.progress

section GoAlike

variable {ε α β : Type} {answers : Conflict → Answer} {S : Progress → Progress → Prop} {Fails : ε → Prop}
  {t u : Moment}

theorem goAlike_pure (h : S t.progress u.progress) (a : α) :
    GoAlike answers S Fails t u (pure a) (pure a) := by
  intro time time' r r' t' u' hx hy
  obtain ⟨rfl, rfl⟩ := ends_pure_iff.1 hx
  obtain ⟨rfl, rfl⟩ := ends_pure_iff.1 hy
  exact ⟨rfl, by simp, h⟩

theorem goAlike_throw {e : ε} (h : S t.progress u.progress) (he : Fails e) :
    GoAlike answers S Fails t u (throw e : ExceptT ε (StateT Progress Dialogue) α) (throw e) := by
  intro time time' r r' t' u' hx hy
  obtain ⟨rfl, rfl⟩ := ends_throw_iff.1 hx
  obtain ⟨rfl, rfl⟩ := ends_throw_iff.1 hy
  refine ⟨rfl, ?_, h⟩
  rintro _ ⟨⟩
  exact he

namespace GoAlike

variable {x y : ExceptT ε (StateT Progress Dialogue) α} {f g : α → ExceptT ε (StateT Progress Dialogue) β}

theorem bind (h : GoAlike answers S Fails t u x y)
    (hf : ∀ a t₁ u₁, S t₁.progress u₁.progress → GoAlike answers S Fails t₁ u₁ (f a) (g a)) :
    GoAlike answers S Fails t u (x >>= f) (y >>= g) := by
  intro time time' r r' t' u' hxf hyg
  obtain ⟨e, hx, rfl⟩ | ⟨a, t₁, hx, hf'⟩ := hxf.bind_cases
  · obtain ⟨_, hy, rfl⟩ | ⟨_, _, hy, -⟩ := hyg.bind_cases
    · obtain ⟨he, hfails, hS⟩ := h _ _ _ _ _ _ hx hy
      cases he
      refine ⟨rfl, ?_, hS⟩
      rintro _ ⟨⟩
      exact hfails e rfl
    · cases (h _ _ _ _ _ _ hx hy).1
  · obtain ⟨_, hy, -⟩ | ⟨_, u₁, hy, hg'⟩ := hyg.bind_cases
    · cases (h _ _ _ _ _ _ hx hy).1
    · obtain ⟨ha, -, hS⟩ := h _ _ _ _ _ _ hx hy
      cases ha
      exact hf a t₁ u₁ hS _ _ _ _ _ _ hf' hg'

/-- Work goes on behind other work, however that ended. -/
theorem attempt {x y : FileWork α} {Fails' : FileFailure → Prop}
    {f g : Except FileFailure α → ExceptT ε (StateT Progress Dialogue) β} (h : GoAlike answers S Fails' t u x y)
    (hf : ∀ q t₁ u₁, (∀ e, q = .error e → Fails' e) → S t₁.progress u₁.progress →
      GoAlike answers S Fails t₁ u₁ (f q) (g q)) :
    GoAlike answers S Fails t u (liftM x.run >>= f) (liftM y.run >>= g) := by
  intro time time' r r' t' u' hxf hyg
  obtain ⟨_, hx, rfl⟩ | ⟨q, t₁, hx, hf'⟩ := hxf.bind_cases
  · obtain ⟨_, hr, -⟩ := hx.lift_cases
    cases hr
  · obtain ⟨_, hy, rfl⟩ | ⟨q', u₁, hy, hg'⟩ := hyg.bind_cases
    · obtain ⟨_, hr, -⟩ := hy.lift_cases
      cases hr
    · obtain ⟨_, hq, hx⟩ := hx.lift_cases
      cases hq
      obtain ⟨_, hq', hy⟩ := hy.lift_cases
      cases hq'
      obtain ⟨rfl, hfails, hS⟩ := h _ _ _ _ _ _ hx hy
      exact hf _ t₁ u₁ hfails hS _ _ _ _ _ _ hf' hg'

theorem get {f g : Progress → ExceptT ε (StateT Progress Dialogue) β}
    (h : GoAlike answers S Fails t u (f t.progress) (g u.progress)) :
    GoAlike answers S Fails t u (MonadState.get >>= f) (MonadState.get >>= g) := h

theorem modify {change change' : Progress → Progress} {f g : Unit → ExceptT ε (StateT Progress Dialogue) β}
    (h : GoAlike answers S Fails ⟨change t.progress, t.past⟩ ⟨change' u.progress, u.past⟩ (f ()) (g ())) :
    GoAlike answers S Fails t u (modify change >>= f) (modify change' >>= g) := h

end GoAlike

end GoAlike

section FileWork

variable {α β : Type} {answers : Conflict → Answer} {S : Progress → Progress → Prop}
  {Fails : FileFailure → Prop} {t u : Moment}

namespace GoAlike

/-- The operators may be told different things. -/
theorem tell {n n' : Notice} {f g : Unit → FileWork β}
    (h : GoAlike answers S Fails ⟨t.progress, .told n :: t.past⟩ ⟨u.progress, .told n' :: u.past⟩
      (f ()) (g ())) :
    GoAlike answers S Fails t u (FileWork.tell n >>= f) (FileWork.tell n' >>= g) := h

theorem tell_pure {n n' : Notice} (h : S t.progress u.progress) (a : α) :
    GoAlike answers S Fails t u (do FileWork.tell n; return a) (do FileWork.tell n'; return a) :=
  .tell (goAlike_pure (t := ⟨t.progress, _ :: _⟩) (u := ⟨u.progress, _ :: _⟩) h a)

theorem ask {c : Conflict} {f g : Answer → FileWork β}
    (h : GoAlike answers S Fails ⟨t.progress, .asked c (answers c) :: t.past⟩
      ⟨u.progress, .asked c (answers c) :: u.past⟩ (f (answers c)) (g (answers c))) :
    GoAlike answers S Fails t u (FileWork.ask c >>= f) (FileWork.ask c >>= g) := h

theorem orIo {a? : Option α} {f g : α → FileWork β} (hS : S t.progress u.progress) (hio : Fails .io)
    (h : ∀ a, a? = some a → GoAlike answers S Fails t u (f a) (g a)) :
    GoAlike answers S Fails t u (FileWork.orIo a? >>= f) (FileWork.orIo a? >>= g) := by
  cases a? with
  | none => exact goAlike_throw hS hio
  | some a => exact h a rfl

/-- The disks change, or refuse both. -/
theorem change {f g : Disk → Option Disk} (hio : Fails .io)
    (h : (f t.progress.disk = none ∧ g u.progress.disk = none ∧ S t.progress u.progress) ∨
      ∃ d e, f t.progress.disk = some d ∧ g u.progress.disk = some e ∧
        S { t.progress with disk := d } { u.progress with disk := e }) :
    GoAlike answers S Fails t u (FileWork.change f) (FileWork.change g) := by
  refine .get (f := fun s => FileWork.orIo (f s.disk) >>= _) (g := fun s => FileWork.orIo (g s.disk) >>= _) ?_
  obtain ⟨hf, hg, hS⟩ | ⟨d, e, hf, hg, hS⟩ := h
  · rw [hf, hg]
    exact goAlike_throw hS hio
  · rw [hf, hg]
    exact .modify (f := pure) (g := pure) (goAlike_pure (t := ⟨_, _⟩) (u := ⟨_, _⟩) hS ())

end GoAlike

end FileWork

section Copies

variable {d e : Disk} {copies others : List ModFile} {first other : ModFile}

theorem sources_eq_of_forall₂ (h : List.Forall₂ (d.SameCopy e) copies others) :
    copies.map (·.source) = others.map (·.source) := by
  induction h with
  | nil => rfl
  | cons hsame _ ih => rw [List.map_cons, List.map_cons, hsame.1, ih]

theorem sameCopy_getLastD (hfirst : d.SameCopy e first other) (h : List.Forall₂ (d.SameCopy e) copies others) :
    d.SameCopy e (copies.getLastD first) (others.getLastD other) := by
  induction h generalizing first other with
  | nil => exact hfirst
  | cons hsame _ ih =>
    rw [List.getLastD_cons, List.getLastD_cons]
    exact ih hsame

end Copies

theorem FileFailure.eq_aborted_of_ending? {e : FileFailure} (h : e.ending? = some .aborted) : e = .aborted := by
  unfold ending? at h
  split at h
  · rfl
  · cases h
  · cases h

namespace FileMerger

/-- What the work on a file sees of two runs is the same while they are related, and each step of the work
leaves them related. -/
structure Matches (m n : FileMerger) (answers : Conflict → Answer) (file : String) (copies others : List ModFile)
    (S : Progress → Progress → Prop) : Prop where
  settings : m.settings = n.settings
  zero : (m.target file).any Path.hasZero = (n.target file).any Path.hasZero
  session : ∀ {s u}, S s u → s.session = u.session
  copies : ∀ {s u}, S s u → List.Forall₂ (s.disk.SameCopy u.disk) copies others
  answer : ∀ {s u} c choice, answers c = .choose choice → S s u →
    S { s with session := (s.session.apply c choice).1 } { u with session := (u.session.apply c choice).1 }
  put : ∀ {s u} content, S s u →
    (s.disk.put? (m.target file) content = none ∧ u.disk.put? (n.target file) content = none) ∨
      ∃ d e, s.disk.put? (m.target file) content = some d ∧ u.disk.put? (n.target file) content = some e ∧
        S { s with disk := d } { u with disk := e }
  conflicts : ∀ {s u} cs, S s u →
    S { s with report := s.report.addConflicts cs } { u with report := u.report.addConflicts cs }
  entry : ∀ {s u} entry, S s u →
    S { s with report := s.report.addFile entry } { u with report := u.report.addFile entry }

/-- Whether two runs are given the same for the game's own file, and stay related then. -/
def ConsultsAlike (m n : FileMerger) (file : String) (S : Progress → Progress → Prop) (s u : Progress) : Prop :=
  ∀ language, (s.base.tree s.disk m.now file language).1.toOption.join =
      (u.base.tree u.disk n.now file language).1.toOption.join ∧
    S (m.consulted file language s) (n.consulted file language u)

theorem goAlike_vanilla {m n : FileMerger} {answers : Conflict → Answer} {S : Progress → Progress → Prop}
    {Fails : FileFailure → Prop} {file : String} {language : Language} {t u : Moment} {β : Type}
    {f g : Option Tree → FileWork β}
    (h : GoAlike answers S Fails ⟨m.consulted file language t.progress, t.past⟩
      ⟨n.consulted file language u.progress, u.past⟩
      (f (t.progress.base.tree t.progress.disk m.now file language).1.toOption.join)
      (g (u.progress.base.tree u.progress.disk n.now file language).1.toOption.join)) :
    GoAlike answers S Fails t u (m.vanilla file language >>= f) (n.vanilla file language >>= g) := h

namespace Matches

variable {m n : FileMerger} {answers : Conflict → Answer} {file : String} {copies others : List ModFile}
  {S : Progress → Progress → Prop} {t u : Moment} {language : Language} {vanilla : Option Tree}

section

variable (h : m.Matches n answers file copies others S) (hanswers : ∀ c, answers c ≠ .abort)
include h hanswers

theorem putToOperator (hS : S t.progress u.progress) (c : Conflict) :
    GoAlike answers S (· ≠ .aborted) t u c.putToOperator c.putToOperator := by
  refine .ask ?_
  cases hanswer : answers c with
  | choose choice => exact .get (.modify (goAlike_pure (h.answer c choice hanswer hS) _))
  | refuse reason => exact goAlike_throw hS (by simp)
  | abort => exact absurd hanswer (hanswers c)

theorem settle (hS : S t.progress u.progress) (settings : MergeSettings) (vanilla : Option Tree) (c : Conflict) :
    GoAlike answers S (· ≠ .aborted) t u (c.settle settings vanilla) (c.settle settings vanilla) := by
  rw [Conflict.settle_eq]
  refine .get ?_
  rw [h.session hS]
  cases c.automaticChoice? settings u.progress.session vanilla with
  | some choice => exact goAlike_pure hS _
  | none => exact .bind (h.putToOperator hanswers hS c) fun _ _ _ hS => goAlike_pure hS _

theorem settleAll (hS : S t.progress u.progress) (settings : MergeSettings) (vanilla : Option Tree)
    (cs : List Conflict) : GoAlike answers S (· ≠ .aborted) t u (ModWeave.settleAll settings vanilla cs)
      (ModWeave.settleAll settings vanilla cs) := by
  induction cs generalizing t u with
  | nil => exact goAlike_pure hS _
  | cons c rest ih =>
    exact .bind (h.settle hanswers hS settings vanilla c) fun _ _ _ hS =>
      .bind (ih hS) fun _ _ _ hS => goAlike_pure hS _

theorem mergeMod (hS : S t.progress u.progress) (so : Merged) (source : String) (modded : Tree) :
    GoAlike answers S (· ≠ .aborted) t u (m.mergeMod file language vanilla so source modded)
      (n.mergeMod file language vanilla so source modded) := by
  unfold FileMerger.mergeMod
  rw [h.settings]
  cases diff ⟨file, so.label, source⟩ so.tree modded with
  | none => exact goAlike_throw hS (by simp)
  | some changes =>
    refine .bind (h.settleAll hanswers hS n.settings vanilla changes.conflicts) fun settled t u hS => ?_
    cases materialize so.tree { changes with conflicts := settled.map (·.1) } with
    | error e => exact goAlike_throw hS (by simp)
    | ok text =>
      dsimp only
      cases language.parse text with
      | error e => exact goAlike_pure hS _
      | ok tree => exact goAlike_pure hS _

theorem mergeMods (hS : S t.progress u.progress) (so : Merged) (mods : List (String × Tree)) :
    GoAlike answers S (· ≠ .aborted) t u (m.mergeMods file language vanilla so mods)
      (n.mergeMods file language vanilla so mods) := by
  induction mods generalizing so t u with
  | nil => exact goAlike_pure hS _
  | cons x rest ih =>
    refine .bind (h.mergeMod hanswers hS so x.1 x.2) fun q t u hS => ?_
    cases q with
    | error e => exact goAlike_pure hS _
    | ok so => exact ih hS so

theorem mergeCopies (hS : S t.progress u.progress) (hbase : m.ConsultsAlike n file S t.progress u.progress) :
    GoAlike answers S (· ≠ .aborted) t u (m.mergeCopies file language copies)
      (n.mergeCopies file language others) := by
  unfold FileMerger.mergeCopies
  refine .get ?_
  rw [Disk.readTrees?_eq (h.copies hS)]
  refine .orIo hS (by simp) fun q _ => ?_
  match q with
  | .error e => exact goAlike_pure hS _
  | .ok [] => exact goAlike_throw hS (by simp)
  | .ok ((source, tree) :: rest) =>
    obtain ⟨hvanilla, hS⟩ := hbase language
    -- the base archive is asked once, before the first comparison
    refine goAlike_vanilla ?_
    rw [hvanilla]
    exact h.mergeMods hanswers hS _ rest

omit hanswers in
/-- What is put in a file's place is put there in both runs, or in neither. -/
theorem putFile (hS : S t.progress u.progress) (content? : Option Content)
    {write? write?' : Disk → Path → Option Disk}
    (hwrite : write? t.progress.disk (m.target file) = content?.bind (t.progress.disk.put? (m.target file)))
    (hwrite' : write?' u.progress.disk (n.target file) = content?.bind (u.progress.disk.put? (n.target file))) :
    GoAlike answers S (· ≠ .aborted) t u (m.put file write?) (n.put file write?') := by
  unfold FileMerger.put
  rw [h.zero]
  split
  · exact goAlike_throw hS (by simp)
  · refine .change (by simp) ?_
    rw [hwrite, hwrite']
    cases content? with
    | none => exact .inl ⟨rfl, rfl, hS⟩
    | some content => exact (h.put content hS).imp_left fun ⟨hd, he⟩ => ⟨hd, he, hS⟩

omit hanswers in
theorem stage (hS : S t.progress u.progress) {copy other : ModFile}
    (hcopy : t.progress.disk.SameCopy u.progress.disk copy other) (notice notice' : Notice)
    (action : FileAction) :
    GoAlike answers S (· ≠ .aborted) t u (do m.stage file copy; FileWork.tell notice; return action)
      (do n.stage file other; FileWork.tell notice'; return action) := by
  refine .bind (h.putFile hS (t.progress.disk.read? copy.path) (Disk.copy?_eq ..) ?_) fun _ t u hS =>
    .tell_pure hS action
  rw [hcopy.2]
  exact Disk.copy?_eq ..

theorem mergeStructured {first other : ModFile} {rest rest' : List ModFile} (hcopies : copies = first :: rest)
    (hothers : others = other :: rest') (hS : S t.progress u.progress)
    (hbase : m.ConsultsAlike n file S t.progress u.progress) :
    GoAlike answers S (· ≠ .aborted) t u (m.mergeStructured file language first rest)
      (n.mergeStructured file language other rest') := by
  subst hcopies hothers
  refine .bind (h.mergeCopies hanswers hS hbase) fun q t u hS => ?_
  cases q with
  | error e =>
    cases h.copies hS with
    | cons hfirst hrest =>
      have hlast := sameCopy_getLastD hfirst hrest
      dsimp only
      rw [hlast.1]
      exact h.stage hS hlast _ _ _
  | ok merged =>
    refine .bind (h.putFile hS (some (.ofText (String.ofList merged.tree.text))) (Disk.writeText?_eq ..)
      (Disk.writeText?_eq ..)) fun _ t u hS => ?_
    exact .modify (.tell_pure (t := ⟨_, _⟩) (u := ⟨_, _⟩) (h.conflicts merged.conflicts hS) _)

/-- The work on a file goes alike. -/
theorem mergeFile (hS : S t.progress u.progress) (hbase : m.ConsultsAlike n file S t.progress u.progress) :
    GoAlike answers S (· ≠ .aborted) t u (m.mergeFile file copies) (n.mergeFile file others) := by
  have hcopies := h.copies hS
  match copies, others, hcopies with
  | [], [], .nil => exact goAlike_throw hS (by simp)
  | [only], [other], .cons hsame .nil =>
    unfold FileMerger.mergeFile
    dsimp only
    rw [hsame.1]
    exact h.stage hS hsame _ _ _
  | first :: second :: rest, other :: another :: rest', .cons hsame hrest =>
    refine .get ?_
    rw [Disk.allIdentical?_eq hsame.2 (List.forall₂_map_left_iff.2 (List.forall₂_map_right_iff.2
      (hrest.imp fun _ _ hcopy => hcopy.2)))]
    refine .orIo hS (by simp) fun same _ => ?_
    split
    · rw [hsame.1]
      exact h.stage hS hsame _ _ _
    · rw [h.settings]
      split
      · exact h.mergeStructured hanswers rfl rfl hS hbase
      · have hlast := sameCopy_getLastD hsame hrest
        dsimp only
        rw [hlast.1]
        exact h.stage hS hlast _ _ _

omit hanswers in
theorem stageLast? (hS : S t.progress u.progress) :
    (m.stageLast? file copies t.progress.disk = none ∧ n.stageLast? file others u.progress.disk = none) ∨
      ∃ source d e, m.stageLast? file copies t.progress.disk = some (source, d) ∧
        n.stageLast? file others u.progress.disk = some (source, e) ∧
        S { t.progress with disk := d } { u.progress with disk := e } := by
  have hcopies := h.copies hS
  match copies, others, hcopies with
  | [], [], .nil => exact .inl ⟨rfl, rfl⟩
  | first :: rest, other :: rest', .cons hfirst hrest =>
    obtain ⟨hsource, hread⟩ := sameCopy_getLastD hfirst hrest
    simp only [FileMerger.stageLast?, getLast?_cons_eq, Disk.copy?_eq, Option.bind_eq_bind, Option.bind_some,
      hsource, hread]
    cases u.progress.disk.read? (rest'.getLastD other).path with
    | none => exact .inl ⟨rfl, rfl⟩
    | some content =>
      obtain ⟨hd, he⟩ | ⟨d, e, hd, he, hS⟩ := h.put content hS
      · exact .inl (by simp [hd, he])
      · exact .inr ⟨(rest'.getLastD other).source, d, e, by simp [hd], by simp [he], hS⟩

omit hanswers in
theorem fallBack (hS : S t.progress u.progress) (e : FileFailure) {Fails : RunFailure → Prop} :
    GoAlike answers S Fails t u (liftM (m.fallBack file copies e)) (liftM (n.fallBack file others e)) := by
  intro time time' r r' t' u' hends hends'
  obtain ⟨staged, hrun, hnone, hsome⟩ := m.run_fallBack file copies e t.progress
  obtain ⟨staged', hrun', hnone', hsome'⟩ := n.run_fallBack file others e u.progress
  obtain ⟨_, rfl, hx⟩ := hends.lift_cases
  obtain ⟨_, rfl, hy⟩ := hends'.lift_cases
  rw [hrun] at hx
  rw [hrun'] at hy
  obtain ⟨rfl, ht⟩ := Prod.mk.inj (Prod.mk.inj hx).1
  obtain ⟨rfl, hu⟩ := Prod.mk.inj (Prod.mk.inj hy).1
  rw [← ht, ← hu]
  obtain ⟨hlast, hlast'⟩ | ⟨source, d, e, hlast, hlast', hS⟩ := h.stageLast? hS
  · rw [hnone hlast, hnone' hlast']
    exact ⟨rfl, by simp, hS⟩
  · rw [hsome _ hlast, hsome' _ hlast']
    exact ⟨rfl, by simp, hS⟩

/-- What is done about a file is done alike, also when the work on it fails. -/
theorem mergeAll (hS : S t.progress u.progress) (hbase : m.ConsultsAlike n file S t.progress u.progress) :
    GoAlike answers S (· ≠ .aborted) t u (m.mergeAll [(file, copies)]) (n.mergeAll [(file, others)]) := by
  unfold FileMerger.mergeAll
  refine .attempt (h.mergeFile hanswers hS hbase) fun q t u hq hS => ?_
  dsimp only
  rw [sources_eq_of_forall₂ (h.copies hS)]
  have hentry (action : FileAction) (t u : Moment) (hS : S t.progress u.progress) :
      GoAlike answers S (· ≠ RunFailure.aborted) t u
        (do modify fun s => { s with report := s.report.addFile ⟨file, others.map (·.source), action⟩ }
            m.mergeAll [])
        (do modify fun s => { s with report := s.report.addFile ⟨file, others.map (·.source), action⟩ }
            n.mergeAll []) :=
    .modify (goAlike_pure (t := ⟨_, _⟩) (u := ⟨_, _⟩) (h.entry _ hS) ())
  cases q with
  | ok action => exact .bind (goAlike_pure hS _) hentry
  | error e =>
    dsimp only
    cases hending : e.ending? with
    | none => exact .bind (h.fallBack hS e) hentry
    | some ending =>
      refine .bind (goAlike_throw hS ?_) hentry
      rintro rfl
      exact hq e rfl (FileFailure.eq_aborted_of_ending? hending)

end

end Matches

/-- Whether each step of the work on a file keeps a property of runs. -/
structure Keeps (m : FileMerger) (answers : Conflict → Answer) (file : String) (I : Progress → Prop) :
    Prop where
  answer : ∀ {s} c choice, answers c = .choose choice → I s →
    I { s with session := (s.session.apply c choice).1 }
  put : ∀ {s content d}, s.disk.put? (m.target file) content = some d → I s → I { s with disk := d }
  consult : ∀ {s} language, I s → I (m.consulted file language s)
  report : ∀ {s} report, I s → I { s with report }

section Keeps

variable {m : FileMerger} {answers : Conflict → Answer} {file : String} {copies : List ModFile}
  {files : List (String × List ModFile)} {I : Progress → Prop} {time : Nat} {t t' : Moment}
  {r : Except RunFailure Unit}

/-- A run goes like itself. -/
theorem Keeps.matches_self (h : m.Keeps answers file I) :
    m.Matches m answers file copies copies fun s u => s = u ∧ I s where
  settings := rfl
  zero := rfl
  session := by
    rintro s _ ⟨rfl, -⟩
    rfl
  copies := by
    rintro s _ ⟨rfl, -⟩
    exact List.forall₂_same.2 fun copy _ => ⟨rfl, rfl⟩
  answer := by
    rintro s _ c choice hanswer ⟨rfl, hI⟩
    exact ⟨rfl, h.answer c choice hanswer hI⟩
  put := by
    rintro s _ content ⟨rfl, hI⟩
    cases hput : s.disk.put? (m.target file) content with
    | none => exact .inl ⟨rfl, rfl⟩
    | some d => exact .inr ⟨d, d, rfl, rfl, rfl, h.put hput hI⟩
  conflicts := by
    rintro s _ cs ⟨rfl, hI⟩
    exact ⟨rfl, h.report _ hI⟩
  entry := by
    rintro s _ entry ⟨rfl, hI⟩
    exact ⟨rfl, h.report _ hI⟩

/-- What each step keeps, a run keeps, however it ends. It is not ended by an operator who does not do so. -/
theorem keeps_mergeAll (h : ∀ g ∈ files, m.Keeps answers g.1 I) (hanswers : ∀ c, answers c ≠ .abort)
    (hI : I t.progress) (hends : Ends (fun _ => answers) time (m.mergeAll files) t r t') :
    r ≠ .error .aborted ∧ I t'.progress := by
  induction files generalizing t with
  | nil =>
    obtain ⟨rfl, rfl⟩ := ends_pure_iff.1 hends
    exact ⟨by simp, hI⟩
  | cons g rest ih =>
    rw [List.forall_mem_cons] at h
    rw [mergeAll_cons] at hends
    have hstep := (h.1.matches_self : m.Matches m answers g.1 g.2 g.2 _).mergeAll hanswers ⟨rfl, hI⟩
      fun language => ⟨rfl, rfl, h.1.consult language hI⟩
    obtain ⟨e, hfile, rfl⟩ | ⟨_, t₁, hfile, hrest⟩ := hends.bind_cases
    · obtain ⟨-, hfails, -, hI⟩ := hstep _ _ _ _ _ _ hfile hfile
      exact ⟨fun he => hfails e rfl (Except.error.inj he), hI⟩
    · obtain ⟨-, -, -, hI⟩ := hstep _ _ _ _ _ _ hfile hfile
      exact ih h.2 hI hrest

end Keeps

end FileMerger

end ModWeave
