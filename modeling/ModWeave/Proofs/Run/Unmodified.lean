import ModWeave.Proofs.Merge.Completion
import ModWeave.Proofs.Merge.Kept
import ModWeave.Proofs.Merge.Triage
import ModWeave.Proofs.Run.Quiet

/-! A mod that ships a file as the unmodified game has it. Merged in after another mod it changes nothing
that mod has made, and asks nothing; but what that mod took out is an addition here, and additions are
kept. -/
namespace ModWeave

open FileWork

namespace FileMerger

variable {m : FileMerger} {file source : String} {language : Language} {vanilla : Option Tree}
  {so : Merged} {modded : Tree} {c : Changes} {choice : Choice} {out : List Char}

/-- What the merge with one more mod gives, when `out` is the merged text and all records were settled by
one choice without asking. -/
def mergedBy (language : Language) (so : Merged) (source : String) (c : Changes) (choice : Choice)
    (out : List Char) : Except Unparsed Merged :=
  match language.parse out with
  | .error e => .error ⟨source, e.message⟩
  | .ok tree => .ok ⟨tree, s!"{so.label} + {source}", so.conflicts ++
      c.conflicts.map fun r => ConflictReport.ofConflict (r.resolve choice) true⟩

theorem quiet_mergeMod (hdiff : diff ⟨file, so.label, source⟩ so.tree modded = some c)
    (hsettled : ∀ r ∈ c.conflicts, r.triageChoice? m.settings vanilla = some choice)
    (hmade : materialize so.tree (c.settledBy fun _ => choice) = .ok out) (s : Progress) :
    Quiet (m.mergeMod file language vanilla so source modded) s []
      (.ok (mergedBy language so source c choice out)) s := by
  unfold mergeMod
  rw [hdiff]
  refine .after (quiet_settleAll hsettled s) ?_
  have hmap : { c with conflicts := (c.conflicts.map fun r => (r.resolve choice, true)).map (·.1) } =
      c.settledBy fun _ => choice := by
    rw [List.map_map]
    rfl
  rw [hmap, hmade, mergedBy]
  dsimp only
  cases language.parse out with
  | error e => exact .ret _ s
  | ok tree =>
    dsimp only
    rw [List.map_map]
    exact .ret _ s

/-- The state once the base archive was asked for a file. -/
def consulted (m : FileMerger) (file : String) (language : Language) (s : Progress) : Progress :=
  { s with
    base := (s.base.tree s.disk m.now file language).2.1
    disk := (s.base.tree s.disk m.now file language).2.2 }

theorem quiet_vanilla (m : FileMerger) (file : String) (language : Language) (s : Progress) :
    Quiet (m.vanilla file language) s []
      (.ok (s.base.tree s.disk m.now file language).1.toOption.join) (m.consulted file language s) := rfl

section Copies

variable {first second : ModFile} {a b : Tree} {s : Progress}
  (hread : s.disk.readTrees? language [first, second] = some (.ok [(first.source, a), (second.source, b)]))
  (hdiff : diff ⟨file, first.source, second.source⟩ a b = some c)
  (hsettled : ∀ r ∈ c.conflicts,
    r.triageChoice? m.settings (s.base.tree s.disk m.now file language).1.toOption.join = some choice)
  (hmade : materialize a (c.settledBy fun _ => choice) = .ok out)

include hread hdiff hsettled hmade

/-- Two copies that can be read are merged without asking when every record settles itself by one
choice. -/
theorem quiet_mergeCopies :
    Quiet (m.mergeCopies file language [first, second]) s []
      (.ok (mergedBy language ⟨a, first.source, []⟩ second.source c choice out))
      (m.consulted file language s) := by
  unfold mergeCopies
  refine .read ?_
  rw [hread]
  refine .after (.ret _ s) (.after (quiet_vanilla m file language s) ?_)
  refine .after (quiet_mergeMod hdiff hsettled hmade _) ?_
  cases mergedBy language ⟨a, first.source, []⟩ second.source c choice out with
  | error e => exact .ret _ _
  | ok merged => exact .ret _ _

/-- Two such copies are merged without asking. Where the merged text is parsed and the disk takes it, it
is written. -/
theorem quiet_mergeStructured :
    ∃ ns r s', Quiet (m.mergeStructured file language first [second]) s ns r s' ∧
      ∀ merged d, language.parse out = .ok merged → (m.target file).any Path.hasZero = false →
        (m.consulted file language s).disk.writeText? (m.target file) out = some d →
        r = .ok (.merged c.conflicts.length) ∧ s'.disk = d := by
  have hcopies := quiet_mergeCopies hread hdiff hsettled hmade
  unfold mergeStructured
  cases hparse : language.parse out with
  | error e =>
    rw [mergedBy, hparse] at hcopies
    obtain ⟨r, s', hstage, -⟩ := quiet_put m file (fun d target => d.copy? second.path target)
      (m.consulted file language s)
    cases r with
    | error e => exact ⟨_, _, _, .after hcopies (.fail hstage), fun _ _ h => by cases h⟩
    | ok =>
      exact ⟨_, _, _, .after hcopies (.after hstage (.bind (.tell _ _) (.ret _ _))), fun _ _ h => by cases h⟩
  | ok tree =>
    rw [mergedBy, hparse] at hcopies
    obtain ⟨r, s', hput, hwritten⟩ := quiet_put m file (fun d target => d.writeText? target tree.text)
      (m.consulted file language s)
    rw [Language.text_of_parse hparse] at hwritten
    cases r with
    | error e =>
      refine ⟨_, _, _, .after hcopies (.fail hput), fun _ d _ hname hd => ?_⟩
      cases (hwritten d hname hd).1
    | ok =>
      refine ⟨_, _, _, .after hcopies (.after hput (.update (.bind (.tell _ _) (.ret _ _)))), ?_⟩
      intro _ d _ hname hd
      obtain ⟨-, rfl⟩ := hwritten d hname hd
      simp

end Copies

end FileMerger

/-- Against the game itself, whatever a mod that ships the game's file has otherwise settles for the base
side. -/
theorem triageChoice?_of_unmodified {text text' : List Char} {a v : Tree} {names : SourceNames}
    {c : Changes} {settings : MergeSettings} (hauto : settings.autoMergeNovel = true)
    (ha : Language.script.parse text = .ok a) (hv : Language.script.parse text' = .ok v)
    (h : diff names a v = some c) :
    ∀ r ∈ c.conflicts, r.triageChoice? settings (some v) = some .keepBase := by
  intro r hr
  have hreported : Reported names a v r := (exactAt_of_diff ha hv h).mem_conflicts.mp hr
  rw [Conflict.triageChoice?, hauto, hreported.triage_mod (Language.keyed_of_parse hv)]
  rfl

theorem readTrees?_of_parse {l : Language} {d : Disk} (first second : ModFile) {text text' : List Char}
    {a b : Tree} (hfirst : (d.read? first.path).bind Content.text? = some text)
    (hsecond : (d.read? second.path).bind Content.text? = some text') (ha : l.parse text = .ok a)
    (hb : l.parse text' = .ok b) :
    d.readTrees? l [first, second] = some (.ok [(first.source, a), (second.source, b)]) := by
  obtain ⟨content, hcontent, htext⟩ := Option.bind_eq_some_iff.mp hfirst
  obtain ⟨content', hcontent', htext'⟩ := Option.bind_eq_some_iff.mp hsecond
  simp [Disk.readTrees?, Disk.readTree?, hcontent, hcontent', htext, htext', ha, hb, Except.mapError,
    Except.map]

/-- A script merged with the game's own copy of it: no one is asked, all records keep the base side, and
the text of the first mod stays as it is, but for what only the game has, which is put in. Where there is
no such thing the text is written unchanged. -/
theorem mergeStructured_with_unmodified {m : FileMerger} {s : Progress} (file : String)
    (first second : ModFile) {textA textV : List Char} {a v : Tree}
    (hauto : m.settings.autoMergeNovel = true)
    (hfirst : (s.disk.read? first.path).bind Content.text? = some textA)
    (hsecond : (s.disk.read? second.path).bind Content.text? = some textV)
    (ha : Language.script.parse textA = .ok a) (hv : Language.script.parse textV = .ok v)
    (hnew : ∀ cs, Language.script.constructs v.source = .ok cs → redefinesAmong .empty cs = false)
    (hships : (s.base.tree s.disk m.now file .script).1 = .ok (some v)) :
    ∃ c out ns r s', diff ⟨file, first.source, second.source⟩ a v = some c ∧
      materialize a (c.settledBy fun _ => .keepBase) = .ok out ∧ textA.Sublist out ∧
      ((∀ path sig, ¬ OnlyInMod a v path sig) → out = textA) ∧
      Quiet (m.mergeStructured file .script first [second]) s ns r s' ∧
      ∀ merged d, Language.script.parse out = .ok merged → (m.target file).any Path.hasZero = false →
        (m.consulted file .script s).disk.writeText? (m.target file) out = some d →
        r = .ok (.merged c.conflicts.length) ∧ s'.disk = d ∧
          ((∀ path sig, ¬ OnlyInMod a v path sig) → a.sameContent merged) := by
  obtain ⟨c, hdiff⟩ := diff_completes ⟨file, first.source, second.source⟩ a hv hnew
  obtain ⟨out, hmade, hsub, hsame⟩ := materialize_of_kept ha hv hdiff
  have hunchanged (hnone : ∀ path sig, ¬ OnlyInMod a v path sig) : out = textA := by
    refine hsame (List.eq_nil_iff_forall_not_mem.mpr fun x hx => ?_)
    exact hnone _ _ ((exactAt_of_diff ha hv hdiff).mem_additions.mp ⟨x, hx, rfl, rfl⟩)
  have hread := readTrees?_of_parse first second hfirst hsecond ha hv
  obtain ⟨ns, r, s', hquiet, hwritten⟩ := FileMerger.quiet_mergeStructured (m := m) hread hdiff
    (by rw [hships]; exact triageChoice?_of_unmodified hauto ha hv hdiff) hmade
  refine ⟨c, out, ns, r, s', hdiff, hmade, hsub, hunchanged, hquiet, fun merged d hm hname hd => ?_⟩
  obtain ⟨hr, hs'⟩ := hwritten merged d hm hname hd
  refine ⟨hr, hs', fun hnone => ?_⟩
  rw [hunchanged hnone, ha] at hm
  cases hm
  exact (Language.keyed_of_parse ha).sameContent_refl

section Shelf

/-- A disk with a script as the game and as two mods have it. -/
private def shelf (game first second : String) : Disk :=
  { Disk.empty with items := .ofList [(["game"], Item.file (Content.ofText game)),
      (["first"], Item.file (Content.ofText first)), (["second"], Item.file (Content.ofText second))] }

/-- The start of a run over that script. -/
private def shelved (d : Disk) : Progress :=
  ⟨⟨(Index.new "game.zip").register ⟨"run.ndf", [], .extracted ["game"], 0⟩, .new [], .new 1 0⟩, d, .new,
    .new "game.zip" ["first.zip", "second.zip"] "out.zip" ""⟩

private def merger : FileMerger := ⟨⟨true, .keep, ["ndf"], []⟩, ["out"], 0⟩

private theorem tree_of_shelved {d : Disk} {text : List Char} {v : Tree}
    (hgame : (d.read? ["game"]).bind Content.text? = some text)
    (hv : Language.script.parse text = .ok v) :
    ((shelved d).base.tree d 0 "run.ndf" .script).1 = .ok (some v) ∧
      (merger.consulted "run.ndf" .script (shelved d)).disk = d := by
  obtain ⟨content, hcontent, htext⟩ := Option.bind_eq_some_iff.mp hgame
  have hentry : (shelved d).base.index.get? "run.ndf" = some ⟨"run.ndf", [], .extracted ["game"], 0⟩ := by
    simp [shelved, Index.get?, Index.register, Index.new]
  have hread : (shelved d).base.content.text d ⟨"run.ndf", [], .extracted ["game"], 0⟩ =
      (.ok text, (shelved d).base.content, d) := by
    obtain ⟨t, ht, rfl⟩ := Option.map_eq_some_iff.mp htext
    simp [ContentCache.text, ContentCache.bytes, Location.read, hcontent, Except.bind, ht]
  have hnone : (shelved d).base.trees.get? 0 "run.ndf" = none := rfl
  have hparse : Script.parse text = .ok v := hv
  change _ ∧ ((shelved d).base.tree d 0 "run.ndf" .script).2.2 = d
  simp [BaseArchive.tree, hentry, hnone, hread, Except.mapError, Except.bind, bind, Language.parse, hparse,
    RecentCache.getOrCompute, Except.map]

/-- Whether nothing in a text takes the place of another thing. -/
private def isFresh (text : List Char) : Bool :=
  match Language.script.parse text with
  | .error _ => true
  | .ok t =>
    match Language.script.constructs t.source with
    | .error _ => true
    | .ok cs => !redefinesAmong .empty cs

private theorem redefinesAmong_of_isFresh {text : List Char} {t : Tree} (h : isFresh text = true)
    (ht : Language.script.parse text = .ok t) :
    ∀ cs, Language.script.constructs t.source = .ok cs → redefinesAmong .empty cs = false := by
  intro cs hcs
  rw [isFresh, ht] at h
  dsimp only at h
  rw [hcs] at h
  simpa using h

/-- What the disk has in the place of the merged script. -/
private def writtenTo (d : Disk) (out : List Char) : Option (List Char) :=
  (d.writeText? (merger.target "run.ndf") out).bind fun d =>
    (d.read? (merger.target "run.ndf")).bind Content.text?

set_option maxRecDepth 100000 in
theorem mergeStructured_with_an_unmodified_call :
    ∃ (m : FileMerger) (s s' : Progress) (first second : ModFile) (a v : Tree) (ns : List Notice),
    (s.disk.read? first.path).bind Content.text? = some "f(1); g();".toList ∧
    (s.disk.read? second.path).bind Content.text? = some "f(); g();".toList ∧
    Language.script.parse "f(1); g();".toList = .ok a ∧
    Language.script.parse "f(); g();".toList = .ok v ∧
    (s.base.tree s.disk m.now "run.ndf" .script).1 = .ok (some v) ∧
    Quiet (m.mergeStructured "run.ndf" .script first [second]) s ns (.ok (.merged 1)) s' ∧
    (s'.disk.read? (m.target "run.ndf")).bind Content.text? = some "f(1); g();".toList := by
  obtain ⟨a, v, c, ha, hv, hc, hcounts⟩ := exists_diff
    (P := fun _ _ c => (c.conflicts.length, c.additions.length) == (1, 0)) .script
    ⟨"run.ndf", "first", "second"⟩ "f(1); g();".toList "f(); g();".toList (by decide +kernel)
  obtain ⟨hlength, hnone⟩ := Prod.mk.inj (beq_iff_eq.mp hcounts)
  let d := shelf "f(); g();" "f(1); g();" "f(); g();"
  have hfirst : (d.read? ["first"]).bind Content.text? = some "f(1); g();".toList := by decide +kernel
  have hsecond : (d.read? ["second"]).bind Content.text? = some "f(); g();".toList := by decide +kernel
  have hgame : (d.read? ["game"]).bind Content.text? = some "f(); g();".toList := by decide +kernel
  have hfresh : isFresh "f(); g();".toList = true := by decide +kernel
  have hplace : writtenTo d "f(1); g();".toList = some "f(1); g();".toList := by decide +kernel
  obtain ⟨hships, hdisk⟩ := tree_of_shelved hgame hv
  obtain ⟨c', out, ns, r, s', hc', hmade, hsub, hsame, hquiet, hwritten⟩ :=
    mergeStructured_with_unmodified (m := merger) (s := shelved d) "run.ndf" ⟨"first", ["first"]⟩
      ⟨"second", ["second"]⟩ rfl hfirst hsecond ha hv (redefinesAmong_of_isFresh hfresh hv) hships
  rw [hc] at hc'
  cases hc'
  have hout : out = "f(1); g();".toList := hsame fun path sig honly => by
    obtain ⟨x, hx, -⟩ := (exactAt_of_diff ha hv hc).mem_additions.mpr honly
    rw [List.length_eq_zero_iff.mp hnone] at hx
    cases hx
  obtain ⟨d', hd', hread⟩ := Option.bind_eq_some_iff.mp hplace
  rw [← hdisk, ← hout] at hd'
  obtain ⟨hr, hs', -⟩ := hwritten a d' (hout ▸ ha) (by decide +kernel) hd'
  rw [hr, hlength] at hquiet
  exact ⟨merger, shelved d, s', ⟨"first", ["first"]⟩, ⟨"second", ["second"]⟩, a, v, ns, hfirst, hsecond, ha, hv, hships, hquiet, hs' ▸ hread⟩

set_option maxRecDepth 100000 in
/-- What the first mod took out comes back. -/
theorem mergeStructured_brings_back :
    ∃ (m : FileMerger) (s s' : Progress) (first second : ModFile) (a v merged : Tree) (ns : List Notice),
    m.settings.autoMergeNovel = true ∧
    (s.disk.read? first.path).bind Content.text? = some "f();".toList ∧
    (s.disk.read? second.path).bind Content.text? = some "f(); g();".toList ∧
    Language.script.parse "f();".toList = .ok a ∧ Language.script.parse "f(); g();".toList = .ok v ∧
    (∀ t ∈ [a, v], ∀ cs, Language.script.constructs t.source = .ok cs →
      redefinesAmong .empty cs = false) ∧
    (s.base.tree s.disk m.now "run.ndf" .script).1 = .ok (some v) ∧
    Quiet (m.mergeStructured "run.ndf" .script first [second]) s ns (.ok (.merged 0)) s' ∧
    (s'.disk.read? (m.target "run.ndf")).bind Content.text? = some "f(); g();".toList ∧
    Language.script.parse "f(); g();".toList = .ok merged ∧ a.sameContent merged = false := by
  obtain ⟨a, v, c, ha, hv, hc, hadds⟩ := exists_diff
    (P := fun _ _ c => c.conflicts.isEmpty && !c.isEmpty) .script ⟨"run.ndf", "first", "second"⟩
    "f();".toList "f(); g();".toList (by decide +kernel)
  rw [Bool.and_eq_true, List.isEmpty_iff] at hadds
  obtain ⟨hnone, hadds⟩ := hadds
  have hdiffers : a.sameContent v = false := by
    rw [Bool.eq_false_iff]
    intro hsame
    rw [((exactAt_of_diff ha hv hc).isEmpty_iff ha hv).mpr hsame] at hadds
    cases hadds
  have hmade : materialize a (c.settledBy fun _ => .keepBase) = .ok "f(); g();".toList := by
    have hall : ((Language.script.parse "f();".toList).toOption.bind fun a =>
        (Language.script.parse "f(); g();".toList).toOption.bind fun v =>
          (diff ⟨"run.ndf", "first", "second"⟩ a v).bind fun c =>
            (materialize a (c.settledBy fun _ => .keepBase)).toOption) = some "f(); g();".toList := by
      decide +kernel
    rw [ha, hv] at hall
    obtain ⟨out, hout⟩ : ∃ out, materialize a (c.settledBy fun _ => .keepBase) = .ok out := by
      obtain ⟨out, hout, -⟩ := materialize_of_kept ha hv hc
      exact ⟨out, hout⟩
    simpa [Except.toOption, hc, hout] using hall
  let d := shelf "f(); g();" "f();" "f(); g();"
  have hfirst : (d.read? ["first"]).bind Content.text? = some "f();".toList := by decide +kernel
  have hsecond : (d.read? ["second"]).bind Content.text? = some "f(); g();".toList := by decide +kernel
  have hgame : (d.read? ["game"]).bind Content.text? = some "f(); g();".toList := by decide +kernel
  have hfresh : isFresh "f();".toList = true := by decide +kernel
  have hfresh' : isFresh "f(); g();".toList = true := by decide +kernel
  have hplace : writtenTo d "f(); g();".toList = some "f(); g();".toList := by decide +kernel
  obtain ⟨hships, hdisk⟩ := tree_of_shelved hgame hv
  have hread := readTrees?_of_parse ⟨"first", ["first"]⟩ ⟨"second", ["second"]⟩ hfirst hsecond ha hv
  obtain ⟨ns, r, s', hquiet, hwritten⟩ := FileMerger.quiet_mergeStructured (m := merger)
    (s := shelved d) hread hc (by simp [hnone]) hmade
  obtain ⟨d', hd', hplaced⟩ := Option.bind_eq_some_iff.mp hplace
  rw [← hdisk] at hd'
  obtain ⟨hr, hs'⟩ := hwritten v d' hv (by decide +kernel) hd'
  rw [hr, hnone] at hquiet
  refine ⟨merger, shelved d, s', ⟨"first", ["first"]⟩, ⟨"second", ["second"]⟩, a, v, v, ns, rfl, hfirst,
    hsecond, ha, hv, ?_, hships, hquiet, hs' ▸ hplaced, hv, hdiffers⟩
  simpa using ⟨redefinesAmong_of_isFresh hfresh ha, redefinesAmong_of_isFresh hfresh' hv⟩

end Shelf

end ModWeave
