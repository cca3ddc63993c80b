import ModWeave.Proofs.Merge.Merged

/-! What merged texts are parsed to. Merged documents are documents whatever is chosen, merged scripts are
scripts unless an added `else` stands in front of a clause that stays, and with the mod's side taken
everywhere the mod is reproduced. -/
namespace ModWeave

/-- A script in which every leaf ends with `;` and nothing takes the place of another construct. -/
structure Script.Tidy (t : Tree) : Prop where
  terminated : ∀ cs, Language.script.constructs t.source = .ok cs → allTerminated t.source cs = true
  fresh : ∀ cs, Language.script.constructs t.source = .ok cs → redefinesAmong .empty cs = false

/-- Whether a script is tidy. -/
def Script.isTidy (t : Tree) : Bool :=
  match Language.script.constructs t.source with
  | .error _ => true
  | .ok cs => allTerminated t.source cs && !redefinesAmong .empty cs

theorem Script.tidy_iff {t : Tree} : Script.Tidy t ↔ Script.isTidy t = true := by
  unfold isTidy
  cases hcs : Language.script.constructs t.source with
  | error => exact iff_of_true ⟨by simp [hcs], by simp [hcs]⟩ rfl
  | ok cs =>
    rw [Bool.and_eq_true, Bool.not_eq_true']
    exact ⟨fun h => ⟨h.terminated cs hcs, h.fresh cs hcs⟩,
      fun h => ⟨fun _ hcs' => Except.ok.inj (hcs.symm.trans hcs') ▸ h.1,
        fun _ hcs' => Except.ok.inj (hcs.symm.trans hcs') ▸ h.2⟩⟩

theorem Script.Tidy.exists_written {l : Language} {t : Tree} {text : List Char} (h : l.parse text = .ok t)
    (htidy : l = .script → Tidy t) : ∃ fs, l.Written t fs :=
  Language.written_of_parse h fun hl cs hcs =>
    ⟨(htidy hl).terminated cs (hl ▸ hcs), (htidy hl).fresh cs (hl ▸ hcs)⟩

section Reparse

variable {l : Language} {text out : List Char} {base mod : Tree} {names : SourceNames} {c : Changes}
  {choice : Conflict → Choice} {fs gs : List Form}

/-- A text that reads as sound forms, and what it is parsed to. -/
theorem written_of_lexemes {t : Tree} (h : l.lexemes? text = some (lexemesAll fs))
    (hsound : ∀ f ∈ fs, l.Sound f ∧ f.isClause = false)
    (hfresh : (anyRedefines fs || labelsRedefine .empty 0 (labelsOf fs)) = false)
    (ht : l.parse text = .ok t) : l.Written t fs := by
  obtain ⟨s, cs, hs, hcs, rfl⟩ := Language.parse_iff.mp ht
  have hlexemes : s.lexemes = lexemesAll fs := by
    rw [Language.lexemes?_of_source hs] at h
    exact Option.some.inj h
  have hordered := Language.ordered_of_constructs hlexemes hsound hcs
  rw [Language.constructs_of_forms hlexemes hsound hordered] at hcs
  cases hcs
  refine ⟨?_, rfl, hlexemes, hsound, hordered, hfresh⟩
  show l.source s.text = .ok s
  rw [Language.text_of_source hs, hs]

/-- With the mod's side taken everywhere the merged text is parsed to what the mod is. -/
private theorem reproduces (hmod : l.Written mod gs)
    (h : Settlement.MergesAll ⟨l, names, base, mod, choice⟩ gs c out fs)
    (hbase : base.root.Keyed) (htakes : c.TakesMod choice) (horder : InOneOrder base mod) :
    ∃ merged, l.parse out = .ok merged ∧ merged.sameContent mod := by
  have hagrees := h.agrees htakes ((inOneOrder_iff hbase hmod.keyed.1).mp horder)
  obtain ⟨merged, hmerged⟩ :=
    (Language.parse_of_lexemes h.lexemes h.sound).mpr (orderedAll_of_agrees hagrees)
  refine ⟨merged, hmerged, (written_of_lexemes h.lexemes h.sound ?_ hmerged).sameContent hmod hagrees⟩
  have hfresh := hmod.fresh
  rw [anyRedefines_of_agrees hagrees, labelsOf_of_agrees hagrees]
  exact (Bool.or_eq_false_iff.mp hfresh).2

end Reparse

section Markup

variable {text text' : List Char} {base mod : Tree}

/-- Whatever is chosen for the records, two documents are merged to a document. With the mod's side taken
everywhere, and what both share in one order, its content is that of the mod. -/
theorem markup_merge_is_well_formed (names : SourceNames) (hbase : Language.markup.parse text = .ok base)
    (hmod : Language.markup.parse text' = .ok mod) :
    ∃ c, diff names base mod = some c ∧ ∀ choice : Conflict → Choice, ∃ out merged,
      materialize base (c.settledBy choice) = .ok out ∧ Language.markup.parse out = .ok merged ∧
        (c.TakesMod choice → InOneOrder base mod → merged.sameContent mod) := by
  obtain ⟨fs, hfs⟩ := Language.written_of_parse hbase (by simp)
  obtain ⟨gs, hgs⟩ := Language.written_of_parse hmod (by simp)
  obtain ⟨c, hc⟩ := diff_completes names base hmod hgs.not_redefines
  refine ⟨c, hc, fun choice => ?_⟩
  obtain ⟨out, forms, h⟩ := Settlement.exists_mergesAll (w := ⟨.markup, names, base, mod, choice⟩) hfs hgs
    (by simp) hc
  have hordered : orderedAll forms = true :=
    orderedAll_iff.mpr fun f hf => Markup.Sound.ordered (h.sound f hf).1
  obtain ⟨merged, hmerged⟩ := (Language.parse_of_lexemes h.lexemes h.sound).mpr hordered
  refine ⟨out, merged, h.made, hmerged, fun htakes horder => ?_⟩
  obtain ⟨merged', hmerged', hsame⟩ := reproduces hgs h hfs.keyed.1 htakes horder
  rw [hmerged] at hmerged'
  cases hmerged'
  exact hsame

set_option maxRecDepth 100000 in
/-- An attribute is set, an element goes and another one comes. -/
theorem markup_merge_of_a_changed_element :
    ∃ base mod c out merged, Language.markup.parse "<a><b/><c/></a>".toList = .ok base ∧
      Language.markup.parse "<a><b x=\"1\"/><d/></a>".toList = .ok mod ∧
      diff ⟨"menu.xml", "game", "mod"⟩ base mod = some c ∧ c.conflicts.length = 2 ∧ c.additions.length = 1 ∧
      materialize base (c.settledBy fun _ => .takeMod) = .ok out ∧
      Language.markup.parse out = .ok merged ∧ merged.sameContent mod := by
  obtain ⟨base, mod, c, hbase, hmod, hc, hcomputed⟩ := exists_diff
    (P := fun base mod c => (c.conflicts.length == 2 && c.additions.length == 1) &&
      inSameOrder base.source mod.source base.root mod.root)
    .markup ⟨"menu.xml", "game", "mod"⟩ "<a><b/><c/></a>".toList "<a><b x=\"1\"/><d/></a>".toList
    (by decide +kernel)
  simp only [Bool.and_eq_true, beq_iff_eq] at hcomputed
  obtain ⟨⟨hconflicts, hadditions⟩, horder⟩ := hcomputed
  obtain ⟨c', hc', hmerges⟩ := markup_merge_is_well_formed ⟨"menu.xml", "game", "mod"⟩ hbase hmod
  rw [hc] at hc'
  cases hc'
  obtain ⟨out, merged, hout, hmerged, hsame⟩ := hmerges fun _ => .takeMod
  have horder := (inOneOrder_iff (Language.keyed_of_parse hbase) (Language.keyed_of_parse hmod)).mpr horder
  exact ⟨base, mod, c, out, merged, hbase, hmod, hc, hconflicts, hadditions, hout, hmerged,
    hsame (fun _ _ => rfl) horder⟩

end Markup

section Script

variable {text text' : List Char} {base mod : Tree}

/-- Whatever is chosen for the records, two tidy scripts are merged to a script exactly when no clause of
the base stays behind an `else` that is added. -/
theorem script_merge_parses_iff (names : SourceNames) (hbase : Language.script.parse text = .ok base)
    (hmod : Language.script.parse text' = .ok mod) (htidy : Script.Tidy base) (htidy' : Script.Tidy mod)
    (hne : ∀ m, base.root.children? = some m → m.nodes ≠ []) :
    ∃ c, diff names base mod = some c ∧ ∀ choice : Conflict → Choice, ∃ out,
      materialize base (c.settledBy choice) = .ok out ∧
        ((∃ merged, Language.script.parse out = .ok merged) ↔
          ∀ a ∈ c.additions, Settlement.Clear ⟨.script, names, base, mod, choice⟩ a) := by
  obtain ⟨fs, hfs⟩ := Script.Tidy.exists_written hbase fun _ => htidy
  obtain ⟨gs, hgs⟩ := Script.Tidy.exists_written hmod fun _ => htidy'
  obtain ⟨c, hc⟩ := diff_completes names base hmod hgs.not_redefines
  refine ⟨c, hc, fun choice => ?_⟩
  obtain ⟨out, forms, h⟩ := Settlement.exists_mergesAll (w := ⟨.script, names, base, mod, choice⟩) hfs hgs
    (fun _ => hne) hc
  exact ⟨out, h.made, (Language.parse_of_lexemes h.lexemes h.sound).trans (h.ordered rfl)⟩

/-- What has to be computed of two scripts to merge them. -/
def isTidyMerge (base mod : Tree) : Bool :=
  Script.isTidy base && Script.isTidy mod && base.root.children?.all (!·.nodes.isEmpty)

theorem tidy_of_isTidyMerge (h : isTidyMerge base mod = true) :
    Script.Tidy base ∧ Script.Tidy mod ∧ ∀ m, base.root.children? = some m → m.nodes ≠ [] := by
  rw [isTidyMerge, Bool.and_eq_true, Bool.and_eq_true, Option.all_eq_true] at h
  obtain ⟨⟨hbase, hmod⟩, hne⟩ := h
  exact ⟨Script.tidy_iff.mpr hbase, Script.tidy_iff.mpr hmod, fun m hm => by simpa using hne m hm⟩

set_option maxRecDepth 100000 in
/-- An `else` that is added behind all clauses of the base is clear of them. -/
theorem script_merge_of_a_closing_else :
    ∃ base mod c out, Language.script.parse "if (a) {} else if (b) {}".toList = .ok base ∧
      Language.script.parse "if (a) {} else if (b) {} else {}".toList = .ok mod ∧
      diff ⟨"run.ndf", "game", "mod"⟩ base mod = some c ∧ c.additions.length = 1 ∧
      materialize base (c.settledBy fun _ => .keepBase) = .ok out ∧
      (∃ merged, Language.script.parse out = .ok merged) ∧
      ∀ a ∈ c.additions,
        Settlement.Clear ⟨.script, ⟨"run.ndf", "game", "mod"⟩, base, mod, fun _ => .keepBase⟩ a := by
  obtain ⟨base, mod, c, hbase, hmod, hc, hcomputed⟩ := exists_diff
    (P := fun base mod c => (isTidyMerge base mod && c.additions.length == 1) &&
      (materialize base (c.settledBy fun _ => .keepBase)).toOption ==
        some "if (a) {} else if (b) {} else {}".toList)
    .script ⟨"run.ndf", "game", "mod"⟩ "if (a) {} else if (b) {}".toList
    "if (a) {} else if (b) {} else {}".toList (by decide +kernel)
  simp only [Bool.and_eq_true, beq_iff_eq] at hcomputed
  obtain ⟨⟨htidy, hadditions⟩, hmade⟩ := hcomputed
  obtain ⟨htidy, htidy', hne⟩ := tidy_of_isTidyMerge htidy
  obtain ⟨c', hc', hmerges⟩ :=
    script_merge_parses_iff ⟨"run.ndf", "game", "mod"⟩ hbase hmod htidy htidy' hne
  rw [hc] at hc'
  cases hc'
  obtain ⟨out, hout, hiff⟩ := hmerges fun _ => .keepBase
  rw [ok_of_toOption hmade] at hout
  cases hout
  exact ⟨base, mod, c, _, hbase, hmod, hc, hadditions, ok_of_toOption hmade, ⟨mod, hmod⟩, hiff.mp ⟨mod, hmod⟩⟩

set_option maxRecDepth 100000 in
/-- Tidy scripts are not always merged to a script. -/
theorem script_merge_is_refused :
    ∃ base mod c out, Language.script.parse "if (a) {} else if (b) {}".toList = .ok base ∧
      Language.script.parse "if (a) {} else {}".toList = .ok mod ∧ Script.Tidy base ∧ Script.Tidy mod ∧
      (∀ m, base.root.children? = some m → m.nodes ≠ []) ∧
      diff ⟨"run.ndf", "game", "mod"⟩ base mod = some c ∧
      materialize base (c.settledBy fun _ => .keepBase) = .ok out ∧
      ∀ merged, Language.script.parse out ≠ .ok merged := by
  obtain ⟨base, mod, c, hbase, hmod, hc, hcomputed⟩ := exists_diff
    (P := fun base mod c => isTidyMerge base mod &&
      (materialize base (c.settledBy fun _ => .keepBase)).toOption ==
        some "if (a) {} else {} else if (b) {}".toList)
    .script ⟨"run.ndf", "game", "mod"⟩ "if (a) {} else if (b) {}".toList "if (a) {} else {}".toList
    (by decide +kernel)
  rw [Bool.and_eq_true, beq_iff_eq] at hcomputed
  obtain ⟨htidy, hmade⟩ := hcomputed
  obtain ⟨htidy, htidy', hne⟩ := tidy_of_isTidyMerge htidy
  have hrefused : (Language.script.parse "if (a) {} else {} else if (b) {}".toList).toOption.isNone := by
    decide +kernel
  refine ⟨base, mod, c, _, hbase, hmod, htidy, htidy', hne, hc, ok_of_toOption hmade, fun merged hmerged => ?_⟩
  rw [hmerged] at hrefused
  cases hrefused

/-- With the mod's side taken everywhere two tidy scripts that have what they share in one order are merged
to a script of the mod's content, so that nothing is left to merge. -/
theorem script_merge_reproduces_mod (names : SourceNames) (hbase : Language.script.parse text = .ok base)
    (hmod : Language.script.parse text' = .ok mod) (htidy : Script.Tidy base) (htidy' : Script.Tidy mod)
    (hne : ∀ m, base.root.children? = some m → m.nodes ≠ []) (horder : InOneOrder base mod) :
    ∃ c, diff names base mod = some c ∧ ∀ choice : Conflict → Choice, c.TakesMod choice → ∃ out merged,
      materialize base (c.settledBy choice) = .ok out ∧ Language.script.parse out = .ok merged ∧
        merged.sameContent mod ∧ ∀ names', diff names' merged mod = some .none := by
  obtain ⟨fs, hfs⟩ := Script.Tidy.exists_written hbase fun _ => htidy
  obtain ⟨gs, hgs⟩ := Script.Tidy.exists_written hmod fun _ => htidy'
  obtain ⟨c, hc⟩ := diff_completes names base hmod hgs.not_redefines
  refine ⟨c, hc, fun choice htakes => ?_⟩
  obtain ⟨out, forms, h⟩ := Settlement.exists_mergesAll (w := ⟨.script, names, base, mod, choice⟩) hfs hgs
    (fun _ => hne) hc
  obtain ⟨merged, hmerged, hsame⟩ := reproduces hgs h hfs.keyed.1 htakes horder
  exact ⟨out, merged, h.made, hmerged, hsame, fun names' => diff_of_sameContent
    (Language.keyed_of_parse hmerged) hgs.keyed.1 (Language.isContainer_of_parse hmerged) hsame⟩

set_option maxRecDepth 100000 in
/-- A call with another argument and a call that is replaced, in a body that has one of them twice. -/
theorem script_merge_of_changed_calls :
    ∃ base mod c out merged, Language.script.parse "sub run() { f(1); f(2); g(); }".toList = .ok base ∧
      Language.script.parse "sub run() { f(1); h(); f(2, 3); }".toList = .ok mod ∧
      diff ⟨"run.ndf", "game", "mod"⟩ base mod = some c ∧ c.conflicts.length = 2 ∧ c.additions.length = 1 ∧
      materialize base (c.settledBy fun _ => .takeMod) = .ok out ∧
      Language.script.parse out = .ok merged ∧ merged.sameContent mod ∧
      diff ⟨"run.ndf", "merged", "mod"⟩ merged mod = some .none := by
  obtain ⟨base, mod, c, hbase, hmod, hc, hcomputed⟩ := exists_diff
    (P := fun base mod c => (c.conflicts.length == 2 && c.additions.length == 1) &&
      (isTidyMerge base mod && inSameOrder base.source mod.source base.root mod.root))
    .script ⟨"run.ndf", "game", "mod"⟩ "sub run() { f(1); f(2); g(); }".toList
    "sub run() { f(1); h(); f(2, 3); }".toList (by decide +kernel)
  simp only [Bool.and_eq_true, beq_iff_eq] at hcomputed
  obtain ⟨⟨hconflicts, hadditions⟩, htidy, horder⟩ := hcomputed
  obtain ⟨htidy, htidy', hne⟩ := tidy_of_isTidyMerge htidy
  have horder := (inOneOrder_iff (Language.keyed_of_parse hbase) (Language.keyed_of_parse hmod)).mpr horder
  obtain ⟨c', hc', hmerges⟩ :=
    script_merge_reproduces_mod ⟨"run.ndf", "game", "mod"⟩ hbase hmod htidy htidy' hne horder
  rw [hc] at hc'
  cases hc'
  obtain ⟨out, merged, hout, hmerged, hsame, hrest⟩ := hmerges (fun _ => .takeMod) fun _ _ => rfl
  exact ⟨base, mod, c, out, merged, hbase, hmod, hc, hconflicts, hadditions, hout, hmerged, hsame, hrest _⟩

end Script

end ModWeave
