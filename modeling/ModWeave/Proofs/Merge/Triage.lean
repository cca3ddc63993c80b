import ModWeave.Proofs.Merge.Difference

/-! Where changes stand next to the unmodified game: what one side alone has changed is never in
conflict, and both sides of a record never agree with the game. -/
namespace ModWeave

namespace Reported

variable {names : SourceNames} {base mod : Tree} {r : Conflict}

/-- Against the base itself every record is a change of the mod alone. -/
theorem triage_base (hbase : base.root.Keyed) (h : Reported names base mod r) :
    r.triage (some base) = .novel := by
  obtain ⟨hfind, hsource⟩ := h.found
  have hunmodified : base.excerpt? r.path = some r.base := by
    rw [Tree.excerpt?, hfind, ← hsource]
    rfl
  have hsame : r.base.sameContent r.base = true := (hbase.find hfind).sameContent_refl
  rw [Conflict.triage, Option.bind_some, hunmodified]
  cases r.mod with
  | none => exact if_pos hsame
  | some m => exact if_pos hsame

/-- Against the mod itself every record is a change of the base side alone. -/
theorem triage_mod (hmod : mod.root.Keyed) (h : Reported names base mod r) :
    r.triage (some mod) = .redundant := by
  cases h with
  | removal path sig a parent inBase absent =>
    rw [Conflict.triage, Option.bind_some, Tree.excerpt?, absent]
    rfl
  | modification path sig a b parent inBase inMod differ whole =>
    have hdiffer : Excerpt.sameContent ⟨base.source, a⟩ ⟨mod.source, b⟩ = false := differ
    have hsame : Excerpt.sameContent ⟨mod.source, b⟩ ⟨mod.source, b⟩ = true :=
      (hmod.find inMod).sameContent_refl
    rw [Conflict.triage, Option.bind_some, Tree.excerpt?, inMod]
    simp [hdiffer, hsame]

/-- The two sides of a record differ, so at most one of them is as some third construct is. -/
theorem not_both_same (hbase : base.root.Keyed) (hmod : mod.root.Keyed)
    (h : Reported names base mod r) {e m : Excerpt} (he : e.node.Keyed) (hm : r.mod = some m) :
    ¬ (r.base.sameContent e ∧ m.sameContent e) := by
  rintro ⟨hsame, hsame'⟩
  cases h with
  | removal => cases hm
  | modification path sig a b parent inBase inMod differ whole =>
    cases hm
    have ha := hbase.find inBase
    have hb := hmod.find inMod
    have hab := ha.sameContent_trans he hb hsame (hb.sameContent_symm he hsame')
    rw [differ] at hab
    cases hab

end Reported

/-- Triage that looks at the mod's side first. -/
def Conflict.triageModFirst (c : Conflict) (vanilla : Option Tree) : ChangeStatus :=
  match vanilla.bind (·.excerpt? c.path), c.mod with
  | none, none => .redundant
  | none, some _ => .conflicting
  | some unmodified, none => if c.base.sameContent unmodified then .novel else .conflicting
  | some unmodified, some modded =>
    if modded.sameContent unmodified then .redundant
    else if c.base.sameContent unmodified then .novel
    else .conflicting

/-- What only `b` changes is novel, what only `a` changes in a diff from `a` to `b` is redundant; and
next to any unmodified game the two sides of a record never both agree with it, so that it does not
matter which side triage looks at first. -/
theorem triage_of_diff {l : Language} {text text' : List Char} {a b : Tree} {names : SourceNames}
    {c : Changes} (ha : l.parse text = .ok a) (hb : l.parse text' = .ok b)
    (h : diff names a b = some c) :
    (∀ r ∈ c.conflicts, r.triage (some a) = .novel) ∧
      (∀ r ∈ c.conflicts, r.triage (some b) = .redundant) ∧
      ∀ (l' : Language) (text'' : List Char) (vanilla : Tree), l'.parse text'' = .ok vanilla →
        ∀ r ∈ c.conflicts, r.triage (some vanilla) = r.triageModFirst (some vanilla) ∧
          ∀ e m, vanilla.excerpt? r.path = some e → r.mod = some m →
            ¬ (r.base.sameContent e ∧ m.sameContent e) := by
  have hkeyed := Language.keyed_of_parse ha
  have hkeyed' := Language.keyed_of_parse hb
  have hreported (r : Conflict) (hr : r ∈ c.conflicts) : Reported names a b r :=
    (exactAt_of_diff ha hb h).mem_conflicts.mp hr
  refine ⟨fun r hr => (hreported r hr).triage_base hkeyed,
    fun r hr => (hreported r hr).triage_mod hkeyed', fun l' text'' vanilla hv r hr => ?_⟩
  have hnot : ∀ e m, vanilla.excerpt? r.path = some e → r.mod = some m →
      ¬ (r.base.sameContent e ∧ m.sameContent e) := by
    intro e m he hm
    obtain ⟨n, hn, rfl⟩ := Option.map_eq_some_iff.mp he
    exact (hreported r hr).not_both_same hkeyed hkeyed' ((Language.keyed_of_parse hv).find hn) hm
  refine ⟨?_, hnot⟩
  rw [Conflict.triage, Conflict.triageModFirst, Option.bind_some]
  cases he : vanilla.excerpt? r.path with
  | none => cases r.mod <;> rfl
  | some e =>
    cases hm : r.mod with
    | none => rfl
    | some m =>
      have hne := hnot e m he hm
      by_cases hsame : r.base.sameContent e
      · have hmod : m.sameContent e = false := by
          by_contra hmod
          exact hne ⟨hsame, by simpa using hmod⟩
        simp [hsame, hmod]
      · simp [hsame]

set_option maxRecDepth 100000 in
theorem triage_of_a_changed_call : ∃ a b c,
    Language.script.parse "f(1); g();".toList = .ok a ∧
    Language.script.parse "f(2);".toList = .ok b ∧ diff ⟨"run.ndf", "game", "mod"⟩ a b = some c ∧
    c.conflicts.length = 2 ∧ (∀ r ∈ c.conflicts, r.triage (some a) = .novel) ∧
    ∀ r ∈ c.conflicts, r.triage (some b) = .redundant := by
  obtain ⟨a, b, c, ha, hb, hc, hlength⟩ := exists_diff (P := fun _ _ c => c.conflicts.length == 2)
    .script ⟨"run.ndf", "game", "mod"⟩ "f(1); g();".toList "f(2);".toList (by decide +kernel)
  obtain ⟨hnovel, hredundant, -⟩ := triage_of_diff ha hb hc
  exact ⟨a, b, c, ha, hb, hc, beq_iff_eq.mp hlength, hnovel, hredundant⟩

end ModWeave
