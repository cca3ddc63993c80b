import ModWeave.Proofs.Run.Staging

/-!
Copies of a file that mean the same. Merging them changes nothing: the first copy's bytes are written. So
copies of the same bytes need not be merged; one of them can be taken as it is.
-/
namespace ModWeave

open FileWork

/-- A text is written as the bytes it was read from. -/
theorem Content.bytes_ofText {content : Content} {text : List Char} (h : content.text? = some text) :
    (Content.ofText (String.ofList text)).bytes = content.bytes := by
  obtain ⟨read, hread, rfl⟩ := Option.map_eq_some_iff.mp h
  rw [String.fromUTF8?] at hread
  split at hread
  · cases hread
    rw [String.ofList_toList]
    rfl
  · cases hread

namespace Disk

variable {d : Disk} {language : Language} {copies : List ModFile}

/-- A tree that was read is that of the text there. -/
theorem text_of_readTree? {path : Path} {content : Content} {tree : Tree} (hread : d.read? path = some content)
    (h : d.readTree? language path = some (.ok tree)) :
    ∃ text, content.text? = some text ∧ language.parse text = .ok tree := by
  rw [readTree?, hread, Option.map_some, Option.some.injEq] at h
  cases htext : content.text? with
  | none =>
    rw [htext] at h
    cases h
  | some text =>
    rw [htext] at h
    dsimp only at h
    refine ⟨text, rfl, ?_⟩
    cases hparse : language.parse text with
    | error e =>
      rw [hparse] at h
      cases h
    | ok tree' =>
      rw [hparse] at h
      cases h
      rfl

/-- Copies that can each be read are all read. -/
theorem exists_readTrees? {P : Tree → Prop}
    (h : ∀ copy ∈ copies, ∃ tree, d.readTree? language copy.path = some (.ok tree) ∧ P tree) :
    ∃ trees, d.readTrees? language copies = some (.ok trees) ∧ ∀ x ∈ trees, P x.2 := by
  induction copies with
  | nil => exact ⟨[], rfl, by simp⟩
  | cons copy copies ih =>
    rw [List.forall_mem_cons] at h
    obtain ⟨⟨tree, htree, hP⟩, hrest⟩ := h
    obtain ⟨trees, htrees, hall⟩ := ih hrest
    refine ⟨(copy.source, tree) :: trees, ?_, List.forall_mem_cons.mpr ⟨hP, hall⟩⟩
    simp [readTrees?, htree, htrees, Except.map]

/-- Copies of the same bytes are read alike. -/
theorem readTree?_of_bytes {path path' : Path} {content content' : Content}
    (hread : d.read? path = some content) (hread' : d.read? path' = some content')
    (h : content'.bytes = content.bytes) : d.readTree? language path' = d.readTree? language path := by
  simp [readTree?, hread, hread', Content.text?, h]

/-- A copy that is there but cannot be parsed keeps all from being read. -/
theorem readTrees?_of_first {first : ModFile} {rest : List ModFile} {reason : String}
    (h : d.readTree? language first.path = some (.error reason)) :
    d.readTrees? language (first :: rest) = some (.error ⟨first.source, reason⟩) := by
  simp [readTrees?, h]

/-- Copies of the same bytes are told to be the same. -/
theorem allIdentical?_of_bytes {first : Path} {paths : List Path} {bytes : ByteArray}
    (hfirst : (d.read? first).map Content.bytes = some bytes)
    (h : ∀ path ∈ paths, (d.read? path).map Content.bytes = some bytes) :
    d.allIdentical? first paths = some true := by
  obtain ⟨content, hread, rfl⟩ := Option.map_eq_some_iff.mp hfirst
  induction paths with
  | nil => rfl
  | cons path paths ih =>
    rw [List.forall_mem_cons] at h
    obtain ⟨content', hread', hbytes⟩ := Option.map_eq_some_iff.mp h.1
    have hsame : d.identical? first path = some true := by
      simp [identical?, hread, hread', Content.size, hbytes]
    rw [allIdentical?, hsame]
    exact ih h.2

end Disk

/-- Without changes the base text comes out. -/
theorem materialize_none {l : Language} {text : List Char} {base : Tree} (h : l.parse text = .ok base)
    (choice : Conflict → Choice) : materialize base (Changes.none.settledBy choice) = .ok text := by
  change splice base.text 0 ([].mergeSort Edit.notAfter) = .ok text
  rw [List.mergeSort_nil, splice, Text.dropBytes?, Language.text_of_parse h]

namespace FileMerger

variable {m : FileMerger} {file : String} {language : Language} {vanilla : Option Tree} {a : Tree}
  {text : List Char} {trees : List (String × Tree)} {first : ModFile} {rest : List ModFile}
  {s s' : Progress} {content : Content} {action : FileAction} {bytes : ByteArray} {d : Disk}

/-- Whether a file can be put in its place. -/
structure Takes (m : FileMerger) (file : String) (d : Disk) : Prop where
  name : (m.target file).any Path.hasZero = false
  spot : d.HasSpot (m.target file)

/-- The work asks nothing, and no record is reported. Where the disk that it comes to takes the file, these
bytes are put in its place and the work ends with this action; otherwise it fails and the disk stays as
it was. -/
def Places (m : FileMerger) (file : String) (x : FileWork FileAction) (s : Progress) (d : Disk)
    (action : FileAction) (bytes : ByteArray) : Prop :=
  ∃ ns r s', Quiet x s ns r s' ∧ s'.report = s.report ∧ s'.session = s.session ∧
    (m.Takes file d → r = .ok action ∧ (s'.disk.read? (m.target file)).map Content.bytes = some bytes) ∧
    (¬ m.Takes file d → ∃ e, r = .error e ∧ e.IsOfDisk ∧ s'.disk = d)

/-- A file is put in its place if the disk takes it there. -/
theorem put_takes (m : FileMerger) (file : String) {write? : Disk → Path → Option Disk} {content : Content}
    {s : Progress} (hwrite : write? s.disk (m.target file) = s.disk.put? (m.target file) content) :
    (∃ d, m.Takes file s.disk ∧ d.read? (m.target file) = some content ∧
        Quiet (m.put file write?) s [] (.ok ()) { s with disk := d }) ∨
      ∃ e, ¬ m.Takes file s.disk ∧ e.IsOfDisk ∧ Quiet (m.put file write?) s [] (.error e) s := by
  unfold put
  split
  · next hzero => exact .inr ⟨.zeroInName, fun h => by simp [h.name] at hzero, .inr rfl, rfl⟩
  · next hzero =>
    have hchange := Quiet.change (write? · (m.target file)) s
    rw [hwrite] at hchange
    obtain ⟨hnone, hspot⟩ | ⟨d, hput, hspot, -⟩ := s.disk.put?_cases (m.target file) content
    · rw [hnone] at hchange
      exact .inr ⟨.io, fun h => hspot h.spot, .inl rfl, hchange⟩
    · rw [hput] at hchange
      refine .inl ⟨d, ⟨Bool.eq_false_iff.mpr hzero, hspot⟩, ?_, hchange⟩
      rw [Disk.read?_put? hput, if_pos rfl]

/-- What is done behind a file that is put in its place tells of it, and changes nothing. -/
theorem Places.of_put {write? : Disk → Path → Option Disk} {f : Unit → FileWork FileAction}
    (hwrite : write? s.disk (m.target file) = s.disk.put? (m.target file) content)
    (htold : ∀ s' : Progress, ∃ ns, Quiet (f ()) s' ns (.ok action) s') :
    m.Places file (m.put file write? >>= f) s s.disk action content.bytes := by
  obtain ⟨d, htakes, hread, hput⟩ | ⟨e, htakes, he, hput⟩ := m.put_takes file hwrite
  · obtain ⟨ns, htold⟩ := htold { s with disk := d }
    exact ⟨_, _, _, .bind hput htold, rfl, rfl, fun _ => ⟨rfl, by rw [hread]; rfl⟩, fun h => absurd htakes h⟩
  · exact ⟨_, _, _, .fail hput, rfl, rfl, fun h => absurd h htakes, fun _ => ⟨e, rfl, he, rfl⟩⟩

theorem Places.after {α : Type} {x : FileWork α} {f : α → FileWork FileAction} {b : α}
    (hx : Quiet x s [] (.ok b) s') (hreport : s'.report = s.report) (hsession : s'.session = s.session)
    (h : m.Places file (f b) s' d action bytes) : m.Places file (x >>= f) s d action bytes := by
  obtain ⟨ns, r, s₁, hquiet, hreport', hsession', hplaced⟩ := h
  exact ⟨ns, r, s₁, .after hx hquiet, hreport'.trans hreport, hsession'.trans hsession, hplaced⟩

/-- One mod's copy is put in the place of a file as it is. -/
theorem Places.of_stage {copy : ModFile} (n : Notice) (hread : s.disk.read? copy.path = some content) :
    m.Places file (do m.stage file copy; FileWork.tell n; return action) s s.disk action content.bytes := by
  refine .of_put ?_ fun s' => ⟨_, .bind (.tell n s') (.ret action s')⟩
  rw [Disk.copy?_eq, hread, Option.bind_some]

/-- Trees of the first one's content leave it as it is, however many there are. -/
theorem quiet_mergeMods (m : FileMerger) (file : String) (vanilla : Option Tree)
    (ha : language.parse text = .ok a)
    (h : ∀ x ∈ trees, (∃ text', language.parse text' = .ok x.2) ∧ a.sameContent x.2) (label : String)
    (s : Progress) : ∃ label', Quiet (m.mergeMods file language vanilla ⟨a, label, []⟩ trees) s []
      (.ok (.ok ⟨a, label', []⟩)) s := by
  induction trees generalizing label with
  | nil => exact ⟨label, .ret _ s⟩
  | cons x trees ih =>
    rw [List.forall_mem_cons] at h
    obtain ⟨⟨⟨text', hx⟩, hsame⟩, hrest⟩ := h
    have hdiff : diff ⟨file, label, x.1⟩ a x.2 = some .none :=
      diff_of_sameContent (Language.keyed_of_parse ha) (Language.keyed_of_parse hx)
        (Language.isContainer_of_parse ha) hsame
    have hmerged : Quiet (m.mergeMod file language vanilla ⟨a, label, []⟩ x.1 x.2) s []
        (.ok (mergedBy language ⟨a, label, []⟩ x.1 .none .keepBase text)) s :=
      quiet_mergeMod hdiff (fun r hr => absurd hr List.not_mem_nil) (materialize_none ha _) s
    rw [mergedBy, ha] at hmerged
    obtain ⟨label', hquiet⟩ := ih hrest s!"{label} + {x.1}"
    exact ⟨label', .after hmerged hquiet⟩

/-- Copies of the first one's content are merged into its text. -/
theorem Places.of_sameContent (hread : s.disk.read? first.path = some content)
    (ha : s.disk.readTree? language first.path = some (.ok a))
    (hrest : ∀ copy ∈ rest, ∃ b, s.disk.readTree? language copy.path = some (.ok b) ∧ a.sameContent b) :
    m.Places file (m.mergeStructured file language first rest) s (m.consulted file language s).disk
      (.merged 0) content.bytes := by
  obtain ⟨text, htext, hparse⟩ := Disk.text_of_readTree? hread ha
  obtain ⟨trees, htrees, hsame⟩ := Disk.exists_readTrees? (P := fun b =>
    (∃ text', language.parse text' = .ok b) ∧ a.sameContent b) fun copy hcopy =>
      (hrest copy hcopy).imp fun b hb => ⟨hb.1, Disk.parse_of_readTree? hb.1, hb.2⟩
  obtain ⟨label, hmods⟩ := m.quiet_mergeMods file (s.base.tree s.disk m.now file language).1.toOption.join hparse
    hsame first.source (m.consulted file language s)
  have hcopies : Quiet (m.mergeCopies file language (first :: rest)) s [] (.ok (.ok ⟨a, label, []⟩))
      (m.consulted file language s) := by
    unfold mergeCopies
    refine .read ?_
    have hall : s.disk.readTrees? language (first :: rest) = some (.ok ((first.source, a) :: trees)) := by
      simp [Disk.readTrees?, ha, htrees, Except.map]
    rw [hall]
    exact .after (.ret _ s) (.after (quiet_vanilla m file language s) hmods)
  unfold mergeStructured
  refine .after hcopies rfl rfl ?_
  rw [← Content.bytes_ofText htext]
  refine .of_put ?_ fun s' => ⟨[.fileMerged file (rest.length + 1)], .update ?_⟩
  · rw [Disk.writeText?_eq, Language.text_of_parse hparse]
  · rw [Report.addConflicts_nil]
    exact .bind (.tell _ _) (.ret _ _)

/-- Where the first copy cannot be parsed, the last one is taken as it is. -/
theorem Places.of_unparsed {reason : String} (hread : s.disk.read? (rest.getLastD first).path = some content)
    (hfirst : s.disk.readTree? language first.path = some (.error reason)) :
    m.Places file (m.mergeStructured file language first rest) s s.disk
      (.parseFallback (rest.getLastD first).source reason) content.bytes := by
  have hcopies : Quiet (m.mergeCopies file language (first :: rest)) s []
      (.ok (.error ⟨first.source, reason⟩)) s := by
    unfold mergeCopies
    refine .read ?_
    rw [Disk.readTrees?_of_first hfirst]
    exact .ret _ s
  unfold mergeStructured
  exact .after hcopies rfl rfl (.of_stage _ hread)

/-- Asking the base archive for a file does not change whether the file can be put in its place. -/
theorem Apart.takes_consulted {files : List (String × List ModFile)}
    (h : m.Apart s.base.content.folder files) (language : Language) :
    m.Takes file (m.consulted file language s).disk ↔ m.Takes file s.disk := by
  obtain ⟨-, -, hspares⟩ := s.base.keeps_tree s.disk m.now file language
  have hspot : _ ↔ s.disk.HasSpot (m.target file) := hspares.hasSpot_iff fun r hr => by
    obtain rfl := List.mem_singleton.mp hr
    exact ⟨h.target file, fun hbelow => h.below ((List.prefix_append _ _).trans hbelow)⟩
  exact ⟨fun ⟨hname, hthere⟩ => ⟨hname, hspot.mp hthere⟩, fun ⟨hname, hthere⟩ => ⟨hname, hspot.mpr hthere⟩⟩

/-- **Copies that mean the same are merged into the first one's bytes**, without a record and without asking,
whatever the game has of the file and however the run is set up. So where copies have the same bytes it comes
to the same whether they are merged or the first one is taken as it is, be it that they can be parsed or
not. -/
theorem mergeStructured_of_same_copies (m : FileMerger) (s : Progress) (file : String) (language : Language)
    (first : ModFile) (rest : List ModFile) :
    (∀ content a, s.disk.read? first.path = some content →
      s.disk.readTree? language first.path = some (.ok a) →
      (∀ copy ∈ rest, ∃ b, s.disk.readTree? language copy.path = some (.ok b) ∧ a.sameContent b) →
      m.Places file (m.mergeStructured file language first rest) s (m.consulted file language s).disk
        (.merged 0) content.bytes) ∧
    (rest ≠ [] → ∀ bytes, (∀ copy ∈ first :: rest, (s.disk.read? copy.path).map Content.bytes = some bytes) →
      m.Places file (m.mergeFile file (first :: rest)) s s.disk (.identical first.source) bytes ∧
      ∃ d action, m.Places file (m.mergeStructured file language first rest) s d action bytes ∧
        (m.Apart s.base.content.folder [] → (m.Takes file d ↔ m.Takes file s.disk))) := by
  refine ⟨fun content a hread ha hrest => .of_sameContent hread ha hrest, fun hne bytes hbytes => ?_⟩
  have hall := Disk.allIdentical?_of_bytes (hbytes first List.mem_cons_self)
    (List.forall_mem_map.mpr (List.forall_mem_cons.mp hbytes).2)
  obtain ⟨content, hread, rfl⟩ := Option.map_eq_some_iff.mp (hbytes first List.mem_cons_self)
  constructor
  · obtain ⟨second, others, rfl⟩ := List.exists_cons_of_ne_nil hne
    obtain ⟨ns, r, s', hquiet, hplaced⟩ : m.Places file (do
        m.stage file first; FileWork.tell (.fileIdentical file); return .identical first.source) s s.disk
        (.identical first.source) content.bytes := .of_stage _ hread
    refine ⟨ns, r, s', ?_, hplaced⟩
    unfold mergeFile
    refine .read ?_
    rw [hall]
    exact .after (.ret _ s) hquiet
  · have hsame : ∀ copy ∈ first :: rest, s.disk.readTree? language copy.path =
        s.disk.readTree? language first.path := by
      intro copy hcopy
      obtain ⟨content', hread', hbytes'⟩ := Option.map_eq_some_iff.mp (hbytes copy hcopy)
      exact Disk.readTree?_of_bytes hread hread' hbytes'
    obtain ⟨tree, htree⟩ : ∃ tree, s.disk.readTree? language first.path = some tree := by
      rw [Disk.readTree?, hread]
      exact ⟨_, rfl⟩
    cases tree with
    | ok a =>
      obtain ⟨text, hparse⟩ := Disk.parse_of_readTree? htree
      refine ⟨_, _, .of_sameContent hread htree fun copy hcopy => ⟨a, ?_, ?_⟩, fun h => h.takes_consulted language⟩
      · rw [hsame copy (List.mem_cons_of_mem _ hcopy), htree]
      · exact (Language.keyed_of_parse hparse).sameContent_refl
    | error reason =>
      have hlast : rest.getLastD first ∈ first :: rest :=
        List.mem_of_getLast? (getLast?_cons_eq first rest)
      obtain ⟨content', hread', hbytes'⟩ := Option.map_eq_some_iff.mp (hbytes _ hlast)
      have hplaced : m.Places file (m.mergeStructured file language first rest) s s.disk _ _ :=
        .of_unparsed hread' htree
      exact ⟨_, _, hbytes' ▸ hplaced, fun _ => Iff.rfl⟩

/-- The disk of a sample run takes a file that can be put in its place there. -/
private theorem takes_sampleStart {texts : List (String × String)} {file : String}
    (hname : (sampleMerger.target file).any Path.hasZero = false)
    (h : ((sampleDisk texts).put? (sampleMerger.target file) .empty).isSome = true) :
    sampleMerger.Takes file (sampleStart texts).progress.disk := by
  obtain ⟨d, hd⟩ := Option.isSome_iff_exists.mp h
  exact ⟨hname, (Disk.puts_of_put? hd).1⟩

set_option maxRecDepth 100000 in
theorem mergeStructured_of_reordered_calls :
    let s := (sampleStart [("first", "f(1); g();"), ("second", "g();\n f( 1 ); // moved")]).progress
    let t := (sampleStart [("first", "f("), ("second", "f(")]).progress
    let first : ModFile := ⟨"first.zip", ["first"]⟩
    let second : ModFile := ⟨"second.zip", ["second"]⟩
    (∃ ns s', Quiet (sampleMerger.mergeStructured "a.scr" .script first [second]) s ns (.ok (.merged 0)) s' ∧
      (s'.disk.read? (sampleMerger.target "a.scr")).map Content.bytes = some "f(1); g();".toUTF8) ∧
    (∃ ns t', Quiet (sampleMerger.mergeFile "a.scr" [first, second]) t ns (.ok (.identical "first.zip")) t' ∧
      (t'.disk.read? (sampleMerger.target "a.scr")).map Content.bytes = some "f(".toUTF8) ∧
    ∃ action ns t', Quiet (sampleMerger.mergeStructured "a.scr" .script first [second]) t ns (.ok action) t' ∧
      (t'.disk.read? (sampleMerger.target "a.scr")).map Content.bytes = some "f(".toUTF8 := by
  intro s t first second
  have hapart : sampleMerger.Apart ["run", "cache"] [] := ⟨by decide, by decide, by simp⟩
  have htakes : sampleMerger.Takes "a.scr" s.disk :=
    takes_sampleStart (by decide +kernel) (by decide +kernel)
  have htakes' : sampleMerger.Takes "a.scr" t.disk :=
    takes_sampleStart (by decide +kernel) (by decide +kernel)
  have hparsed : ((s.disk.readTree? .script first.path).bind Except.toOption).bind (fun a =>
      ((s.disk.readTree? .script second.path).bind Except.toOption).map a.sameContent) = some true := by
    decide +kernel
  obtain ⟨a, ha, hparsed⟩ := Option.bind_eq_some_iff.mp hparsed
  obtain ⟨b, hb, hsame⟩ := Option.map_eq_some_iff.mp hparsed
  obtain ⟨ra, hra, ha⟩ := Option.bind_eq_some_iff.mp ha
  obtain ⟨rb, hrb, hb⟩ := Option.bind_eq_some_iff.mp hb
  obtain ⟨hmerged, -⟩ := mergeStructured_of_same_copies sampleMerger s "a.scr" .script first [second]
  obtain ⟨-, hidentical⟩ := mergeStructured_of_same_copies sampleMerger t "a.scr" .script first [second]
  obtain ⟨ns, r, s', hquiet, -, -, hplaced, -⟩ := hmerged (.ofText "f(1); g();") a rfl
    (ok_of_toOption ha ▸ hra) (by simpa using ⟨b, ok_of_toOption hb ▸ hrb, hsame⟩)
  obtain ⟨rfl, hbytes⟩ := hplaced ((hapart.takes_consulted .script).mpr htakes)
  obtain ⟨⟨ns', r', t', hquiet', -, -, hplaced', -⟩, d, action, ⟨ns'', r'', t'', hquiet'', -, -, hplaced'', -⟩,
    hspot⟩ := hidentical (by simp) "f(".toUTF8 (List.forall_mem_cons.mpr ⟨rfl, List.forall_mem_singleton.mpr rfl⟩)
  obtain ⟨rfl, hbytes'⟩ := hplaced' htakes'
  obtain ⟨rfl, hbytes''⟩ := hplaced'' ((hspot hapart).mpr htakes')
  exact ⟨⟨ns, s', hquiet, hbytes⟩, ⟨ns', t', hquiet', hbytes'⟩, action, ns'', t'', hquiet'', hbytes''⟩

end FileMerger

end ModWeave
