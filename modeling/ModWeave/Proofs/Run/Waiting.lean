import ModWeave.Proofs.Run.Account
import ModWeave.Proofs.Run.Alike
import ModWeave.Proofs.Run.Lookup

/-!
Files that wait for their turn. What the work on a file sees of a run is the same before and after the work on
other files, up to the cache of trees, and the game's own file is read as it would have been at first.
-/
namespace ModWeave

/-- What the work on a file sees of a run, and what it leaves there, but for the base archive. -/
structure View where
  session : Session
  /-- The mods that have the file, and what is in their copies. -/
  copies : List (String × Option Content)
  /-- Whether a file can be put in its place. -/
  spot : Prop
  /-- What is in its place. -/
  place : Option Content
  entries : List FileReport
  conflicts : List ConflictReport

namespace FileMerger

def view (m : FileMerger) (file : String) (copies : List ModFile) (s : Progress) : View where
  session := s.session
  copies := copies.map fun copy => (copy.source, s.disk.read? copy.path)
  spot := s.disk.HasSpot (m.target file)
  place := s.disk.read? (m.target file)
  entries := s.report.files.filter (·.name = file)
  conflicts := s.report.conflicts.filter (·.names.file = file)

/-- A run as it begins. Nothing was reported or asked of the base archive, and what is read and written lies
apart: copies, places, the archive, and copies of its files. No path of the output leads through another one. -/
structure Begins (m : FileMerger) (files : List (String × List ModFile)) (s : Progress) : Prop where
  unreported : s.report.files = [] ∧ s.report.conflicts = []
  named : s.base.IsNamed
  unasked : ∀ name, s.base.Unasked s.disk name
  apart : m.Apart s.base.content.folder files
  archive : ∀ name e, s.base.index.get? name = some e →
    ¬ m.staging <+: e.location.file ∧ ¬ s.base.content.folder <+: e.location.file
  paths : ∀ f ∈ files, ∀ g ∈ files, EntryName.segments f.1 <+: EntryName.segments g.1 → f.1 = g.1

/-- The places of the other files. -/
def otherPlaces (m : FileMerger) (files : List (String × List ModFile)) (file : String) : List Path :=
  (files.filter (·.1 ≠ file)).map fun f => m.target f.1

/-- A later stage of a run, in which only other files were worked on. -/
structure Awaits (m : FileMerger) (files : List (String × List ModFile)) (file : String) (s s' : Progress) :
    Prop where
  index : s'.base.index = s.base.index
  folder : s'.base.content.folder = s.base.content.folder
  session : s'.session = s.session
  unasked : s'.base.Unasked s'.disk file
  disk : s.disk.Spares (m.otherPlaces files file) s.base.content.folder s'.disk

variable {m n : FileMerger} {answers : Conflict → Answer} {time : Nat} {file : String}
  {copies others : List ModFile} {files : List (String × List ModFile)} {g : String × List ModFile}
  {s s₁ s' : Progress} {t t' : Moment}

theorem mem_otherPlaces (hg : g ∈ files) (hne : g.1 ≠ file) : m.target g.1 ∈ m.otherPlaces files file :=
  List.mem_map.2 ⟨g, List.mem_filter.2 ⟨hg, by simpa using hne⟩, rfl⟩

/-- In the folder of a run, into which the archives were just loaded, a run begins so. -/
theorem Begins.of_load (w : Workspace) (settings : MergeSettings) (now : Nat) {p : PathCorrection}
    {path : String} {cache : CacheSettings} {d d' : Disk} {mods : List Index}
    (hload : BaseArchive.load path w.baseCache cache d = (.ok s.base, d'))
    (hmods : ∀ mod ∈ mods, ∃ number source d d',
      Index.build .extract source (w.modFolder number) d = (.ok mod, d'))
    (hunreported : s.report.files = [] ∧ s.report.conflicts = [])
    (hcopies : ∀ path, w.baseCache ++ ["content"] <+: path → s.disk.read? path = none)
    (harchive : ∀ name e, s.base.index.get? name = some e →
      ¬ w.merged <+: e.location.file ∧ ¬ w.baseCache ++ ["content"] <+: e.location.file)
    (hpaths : ∀ f ∈ (Collection.ofMods p s.base.index mods).1.toList,
      ∀ g ∈ (Collection.ofMods p s.base.index mods).1.toList,
      EntryName.segments f.1 <+: EntryName.segments g.1 → f.1 = g.1) :
    Begins ⟨settings, w.merged, now⟩ (Collection.ofMods p s.base.index mods).1.toList s := by
  obtain ⟨hnamed, hslots, hfolder⟩ := BaseArchive.fresh_of_load hload
  have hunasked (name : String) : s.base.Unasked s.disk name := by
    refine ⟨hcopies _ ?_, by simp [hslots]⟩
    rw [← hfolder]
    exact List.prefix_append _ _
  refine ⟨hunreported, hnamed, hunasked, ?_, ?_, hpaths⟩
  · rw [hfolder]
    exact Apart.of_workspace w settings now hmods
  · rw [hfolder]
    exact harchive

theorem Awaits.refl (h : m.Begins files s) : m.Awaits files file s s :=
  ⟨rfl, rfl, rfl, h.unasked file, .refl ..⟩

/-- The place of another file can be filled while a file waits. -/
theorem Awaits.put (h : m.Awaits files file s s₁) (hbegins : m.Begins files s) (hg : g ∈ files)
    (hne : g.1 ≠ file) {content : Content} {d : Disk} (hput : s₁.disk.put? (m.target g.1) content = some d) :
    m.Awaits files file s { s₁ with disk := d } where
  index := h.index
  folder := h.folder
  session := h.session
  unasked := by
    refine ⟨?_, h.unasked.tree⟩
    rw [Disk.read?_put? hput, if_neg]
    · exact h.unasked.copy
    · intro heq
      exact hbegins.apart.target g.1 (heq ▸ h.folder ▸ List.prefix_append _ _)
  disk := by
    obtain ⟨hspot, hputs⟩ := Disk.puts_of_put? hput
    exact h.disk.trans ((hputs.spares hspot _).mono (by simpa using mem_otherPlaces hg hne))

/-- The base archive can be asked for another file while a file waits. -/
theorem Awaits.consult (h : m.Awaits files file s s₁) (hbegins : m.Begins files s) {other : String}
    (hne : other ≠ file) (language : Language) :
    m.Awaits files file s (m.consulted other language s₁) where
  index := (BaseArchive.keeps_tree ..).1.trans h.index
  folder := (BaseArchive.keeps_tree ..).2.1.trans h.folder
  session := h.session
  unasked := h.unasked.of_other (fun name e he => hbegins.named name e (h.index ▸ he)) hne m.now language
  disk := by
    have hspares := (s₁.base.keeps_tree s₁.disk m.now other language).2.2
    rw [h.folder] at hspares
    exact h.disk.trans (hspares.mono (List.nil_subset _))

/-- A file waits while others are worked on. -/
theorem Begins.keeps_awaits (hbegins : m.Begins files s) (hg : g ∈ files) (hne : g.1 ≠ file)
    (hanswers : ∀ c choice, answers c = .choose choice → choice.appliesToAll = false) :
    m.Keeps answers g.1 (m.Awaits files file s) where
  answer c choice hanswer h := by
    refine ⟨h.index, h.folder, ?_, h.unasked, h.disk⟩
    rw [← h.session, Session.apply, hanswers c choice hanswer]
    rfl
  put hput h := h.put hbegins hg hne hput
  consult language h := h.consult hbegins hne language
  report _ h := ⟨h.index, h.folder, h.session, h.unasked, h.disk⟩

/-- What the work on a file sees does not change while the places of others do. -/
theorem Begins.view_eq (hbegins : m.Begins files s) (hfile : (file, copies) ∈ files)
    (hdisk : s₁.disk.Spares (m.otherPlaces files file) s.base.content.folder s'.disk)
    (hsession : s'.session = s₁.session)
    (hentries : s'.report.files.filter (·.name = file) = s₁.report.files.filter (·.name = file))
    (hconflicts : s'.report.conflicts.filter (·.names.file = file) =
      s₁.report.conflicts.filter (·.names.file = file)) :
    m.view file copies s' = m.view file copies s₁ := by
  have hcopies (copy : ModFile) (hcopy : copy ∈ copies) : s'.disk.read? copy.path = s₁.disk.read? copy.path := by
    obtain ⟨hstaging, hfolder⟩ := hbegins.apart.copies _ hfile copy hcopy
    refine hdisk.read? (fun hmem => ?_) hfolder
    obtain ⟨g, -, heq⟩ := List.mem_map.1 hmem
    exact hstaging (heq ▸ List.prefix_append _ _)
  have hplaces : ∀ r ∈ s.base.content.folder :: m.otherPlaces files file,
      ¬ r <+: m.target file ∧ ¬ m.target file <+: r := by
    rw [List.forall_mem_cons]
    refine ⟨⟨hbegins.apart.target file, fun h => hbegins.apart.below ((List.prefix_append _ _).trans h)⟩, ?_⟩
    intro r hr
    obtain ⟨g, hg, rfl⟩ := List.mem_map.1 hr
    obtain ⟨hg, hne⟩ := List.mem_filter.1 hg
    replace hne : g.1 ≠ file := by simpa using hne
    exact ⟨fun h => hne (hbegins.paths _ hg _ hfile ((List.prefix_append_right_inj _).1 h)),
      fun h => hne (hbegins.paths _ hfile _ hg ((List.prefix_append_right_inj _).1 h)).symm⟩
  have hplace : m.target file ∉ m.otherPlaces files file := fun hmem =>
    (hplaces _ (List.mem_cons_of_mem _ hmem)).1 (List.prefix_refl _)
  simp only [view, View.mk.injEq]
  exact ⟨hsession, List.map_congr_left fun copy hcopy => by rw [hcopies copy hcopy],
    propext (hdisk.hasSpot_iff hplaces), hdisk.read? hplace (hbegins.apart.target file), hentries, hconflicts⟩

/-- What is reported of a file stays while others are reported. -/
theorem Results.filter_report {operator : Operator} {results : List FileResult}
    (h : m.Results operator s files results s') (hne : ∀ g ∈ files, g.1 ≠ file) :
    s'.report.files.filter (·.name = file) = s.report.files.filter (·.name = file) ∧
      s'.report.conflicts.filter (·.names.file = file) = s.report.conflicts.filter (·.names.file = file) := by
  induction h with
  | nil => exact ⟨rfl, rfl⟩
  | @cons s s₁ s' other _ _ records _ _ _ hmakes _ ih =>
    rw [List.forall_mem_cons] at hne
    obtain ⟨s₀, -, houtcome⟩ := hmakes.outcome
    have hrecords : ∀ c ∈ records, c.names.file ≠ file := fun c hc =>
      have hname := List.mem_map_of_mem (f := fun c => c.names.file) hc
      List.eq_of_mem_replicate (houtcome.map_names_file ▸ hname) ▸ hne.1
    obtain ⟨hfiles, hconflicts⟩ := ih hne.2
    rw [hfiles, hconflicts, hmakes.report]
    simpa [Report.addFile, Report.addConflicts, hne.1] using hrecords

/-- The turn of a file in a run from `t` on, by which it comes from one moment to another. Nothing has changed by
then that the work on the file sees, and nothing changes after it that it leaves. -/
structure Turn (m : FileMerger) (answers : Conflict → Answer) (time : Nat) (file : String)
    (copies : List ModFile) (t t₁ t₂ t' : Moment) : Prop where
  before : m.view file copies t₁.progress = m.view file copies t.progress
  vanilla : ∀ language, (t₁.progress.base.tree t₁.progress.disk m.now file language).1.toOption.join =
    (t.progress.base.index.text? t.progress.disk file).bind fun text => (language.parse text).toOption
  consulted : ∀ language, m.view file copies (m.consulted file language t₁.progress) =
    m.view file copies t₁.progress
  turn : Ends (fun _ => answers) time (m.mergeAll [(file, copies)]) t₁ (.ok ()) t₂
  place : t'.progress.disk.read? (m.target file) = t₂.progress.disk.read? (m.target file)
  entries : t'.progress.report.files.filter (·.name = file) = t₂.progress.report.files.filter (·.name = file)
  conflicts : t'.progress.report.conflicts.filter (·.names.file = file) =
    t₂.progress.report.conflicts.filter (·.names.file = file)

/-- A run over files that comes to its end comes to the results of each. -/
theorem exists_results {operator : Operator} (h : Ends operator time (m.mergeAll files) t (.ok ()) t') :
    ∃ results, m.Results operator t.progress files results t'.progress := by
  obtain ⟨hr, -⟩ | ⟨hr, -⟩ | ⟨-, hresults⟩ := h.mergeAll_cases
  · cases hr
  · cases hr
  · exact hresults

/-- Every file has its turn. -/
theorem Begins.exists_turn (hbegins : m.Begins files t.progress) (hnodup : (files.map Prod.fst).Nodup)
    (hanswers : ∀ c, answers c ≠ .abort ∧ ∀ choice, answers c = .choose choice → choice.appliesToAll = false)
    (hfile : (file, copies) ∈ files) (h : Ends (fun _ => answers) time (m.mergeAll files) t (.ok ()) t') :
    ∃ t₁ t₂, m.Turn answers time file copies t t₁ t₂ t' := by
  obtain ⟨earlier, later, hsplit⟩ := List.append_of_mem hfile
  have hothers : ∀ g ∈ earlier ++ later, g ∈ files ∧ g.1 ≠ file := by
    rw [hsplit, List.map_append, List.map_cons, List.nodup_middle, List.nodup_cons, ← List.map_append] at hnodup
    refine fun g hg => ⟨?_, fun heq => hnodup.1 (List.mem_map.2 ⟨g, hg, heq⟩)⟩
    rw [hsplit, List.mem_append, List.mem_cons]
    exact (List.mem_append.1 hg).imp_right .inr
  rw [hsplit, mergeAll_append, mergeAll_cons] at h
  obtain ⟨_, -, hr⟩ | ⟨_, t₁, hearlier, h⟩ := h.bind_cases
  · cases hr
  obtain ⟨_, -, hr⟩ | ⟨_, t₂, hturn, hlater⟩ := h.bind_cases
  · cases hr
  have hkeeps (g : String × List ModFile) (hg : g ∈ earlier) :=
    have hg := hothers g (List.mem_append_left _ hg)
    hbegins.keeps_awaits hg.1 hg.2 fun c => (hanswers c).2
  obtain ⟨-, hawaits⟩ := keeps_mergeAll hkeeps (fun c => (hanswers c).1) (.refl hbegins) hearlier
  obtain ⟨_, hresults⟩ := exists_results hearlier
  obtain ⟨_, hresults'⟩ := exists_results hlater
  have hreport := hresults.filter_report fun g hg => (hothers g (List.mem_append_left _ hg)).2
  have hreport' := hresults'.filter_report fun g hg => (hothers g (List.mem_append_right _ hg)).2
  refine ⟨t₁, t₂, ?_, fun language => ?_, fun language => ?_, hturn, ?_, hreport'.1, hreport'.2⟩
  · exact hbegins.view_eq hfile hawaits.disk hawaits.session hreport.1 hreport.2
  · rw [hawaits.unasked.toOption_tree (fun name e he => hbegins.named name e (hawaits.index ▸ he)),
      hawaits.index, Index.text?_congr fun e he => ?_]
    obtain ⟨hstaging, hfolder⟩ := hbegins.archive file e he
    refine hawaits.disk.read? (fun hmem => ?_) hfolder
    obtain ⟨g, -, heq⟩ := List.mem_map.1 hmem
    exact hstaging (heq ▸ List.prefix_append _ _)
  · have hspares := (t₁.progress.base.keeps_tree t₁.progress.disk m.now file language).2.2
    rw [hawaits.folder] at hspares
    exact hbegins.view_eq hfile (hspares.mono (List.nil_subset _)) rfl rfl rfl
  · have hfolder : t₂.progress.base.content.folder = t.progress.base.content.folder :=
      hturn.keeps_of_mergeAll.folder.trans hawaits.folder
    have hapart : m.Apart t₂.progress.base.content.folder files := hfolder ▸ hbegins.apart
    refine hapart.read?_target (later.map Prod.fst) ?_ fun hmem => ?_
    · rw [List.map_map]
      exact hlater.keeps_of_mergeAll
    · obtain ⟨g, hg, heq⟩ := List.mem_map.1 hmem
      exact (hothers g (List.mem_append_right _ hg)).2 heq

end FileMerger

end ModWeave
