import ModWeave.Proofs.Merge.Rewriting

/-! The merged text, told place by place. Where the changes go decides whether there is one and what it
is; the order in which the records are listed does not. -/
namespace ModWeave

namespace Conflict

/-- Bytes of the base's construct. -/
def span (r : Conflict) : Nat × Nat := r.base.node.span r.base.source

/-- Whether the record is settled for the mod. -/
def isWon (r : Conflict) : Bool := r.resolution.any Choice.takesMod

/-- What a record that the mod wins does to the base text. -/
def wonEdit (r : Conflict) : Edit := ⟨r.span.1, r.span.2, r.modText⟩

/-- Whether no byte belongs to the constructs of both records. -/
def LiesApart (r r' : Conflict) : Prop := r.span.2 ≤ r'.span.1 ∨ r'.span.2 ≤ r.span.1

instance (r r' : Conflict) : Decidable (r.LiesApart r') := inferInstanceAs (Decidable (_ ∨ _))

end Conflict

namespace Changes

/-- The records that are settled for the mod. -/
def won (c : Changes) : List Conflict := c.conflicts.filter Conflict.isWon

/-- What the changes do at each byte: they put in what is added there, in the order of the list, and the
mod's construct, or nothing, for one that the mod wins. -/
def rewriting (c : Changes) : Rewriting where
  added k := (c.additions.filter (·.offset == k)).flatMap Addition.text
  replacement k := (c.won.filter (·.span.1 == k)).flatMap Conflict.modText
  isCut k := c.won.any fun r => r.span.1 ≤ k && k < r.span.2

/-- Constructs that the mod wins overlap, or something is added in the middle of one. -/
def Collides (c : Changes) : Prop :=
  ¬ c.won.Pairwise Conflict.LiesApart ∨
    ∃ r ∈ c.won, ∃ a ∈ c.additions, r.span.1 < a.offset ∧ a.offset < r.span.2

instance (c : Changes) : Decidable c.Collides := inferInstanceAs (Decidable (_ ∨ _))

/-- The changes cut the text in front of characters. Constructs of records take up bytes and are written
somewhere, as those of all trees that are parsed. -/
structure Fits (s : Source) (c : Changes) : Prop where
  nonempty : ∀ r ∈ c.conflicts, r.span.1 < r.span.2
  boundary : ∀ r ∈ c.conflicts, s.Boundary r.span.1 ∧ s.Boundary r.span.2
  written : ∀ r ∈ c.conflicts, ∀ m ∈ r.mod, ∃ text, m.text? = some text
  offset : ∀ a ∈ c.additions, s.Boundary a.offset

/-- The same changes in another order, in which additions at one place stand as they did. -/
structure Rearranges (c c' : Changes) : Prop where
  conflicts : c.conflicts.Perm c'.conflicts
  additions : c.additions.Perm c'.additions
  order : ∀ k, c.additions.filter (·.offset == k) = c'.additions.filter (·.offset == k)

end Changes

section Records

variable {s : Source} {c c' : Changes} {r : Conflict} {records : List Conflict}

theorem Conflict.edit_of_resolved (h : r.isResolved) (hmod : ∀ m ∈ r.mod, ∃ text, m.text? = some text) :
    r.edit = .ok (if r.isWon then some r.wonEdit else none) := by
  obtain ⟨choice, hchoice⟩ := Option.isSome_iff_exists.mp h
  have hr : r = r.resolve choice := by
    rw [Conflict.resolve, ← hchoice]
  have hwon : r.isWon = choice.takesMod := by
    rw [Conflict.isWon, hchoice, Option.any_some]
  rw [hwon]
  cases htakes : choice.takesMod with
  | false =>
    rw [hr, edit_of_kept r htakes]
    rfl
  | true =>
    cases hm : r.mod with
    | none =>
      rw [hr, edit_of_dropped htakes hm, ← hr, Conflict.wonEdit, Conflict.modText, hm]
      rfl
    | some m =>
      obtain ⟨text, htext⟩ := hmod m hm
      have hshown : m.text = text := by
        rw [Excerpt.text, Node.text, show m.node.text? m.source = _ from htext, Option.getD_some]
      rw [hr, edit_of_taken htakes hm htext, ← hr, Conflict.wonEdit, Conflict.modText, hm, ← hshown]
      rfl

/-- Settled records are all made into edits, those that the base wins into none. -/
private theorem mapM_edit (h : ∀ r ∈ records, r.isResolved)
    (hmod : ∀ r ∈ records, ∀ m ∈ r.mod, ∃ text, m.text? = some text) :
    ∃ chosen, records.mapM Conflict.edit = .ok chosen ∧
      chosen.filterMap id = (records.filter Conflict.isWon).map Conflict.wonEdit := by
  induction records with
  | nil => exact ⟨[], rfl, rfl⟩
  | cons r records ih =>
    rw [List.forall_mem_cons] at h hmod
    obtain ⟨chosen, hchosen, hwon⟩ := ih h.2 hmod.2
    refine ⟨(if r.isWon then some r.wonEdit else none) :: chosen, ?_, ?_⟩
    · rw [List.mapM_cons, Conflict.edit_of_resolved h.1 hmod.1, hchosen]
      rfl
    · rw [List.filterMap_cons, List.filter_cons, hwon]
      cases r.isWon <;> rfl

namespace Changes

/-- The edits of changes of which every record is settled. -/
def allEdits (c : Changes) : List Edit := c.won.map Conflict.wonEdit ++ c.additions.map Addition.edit

theorem edits_of_resolved (hfits : c.Fits s) (h : c.unresolved = []) : c.edits = .ok c.allEdits := by
  have hresolved : ∀ r ∈ c.conflicts, r.isResolved := by
    simpa [unresolved, List.filter_eq_nil_iff] using h
  obtain ⟨chosen, hchosen, hwon⟩ := mapM_edit hresolved hfits.written
  rw [edits, hchosen, allEdits, won, ← hwon]
  rfl

/-- The first record that is not settled is told. -/
theorem edits_of_unresolved (hfits : c.Fits s) {rest : List Conflict} (h : c.unresolved = r :: rest) :
    c.edits = .error (.unresolved r.names.file r.signature) := by
  obtain ⟨before, after, hsplit, hbefore, hr, -⟩ := List.filter_eq_cons_iff.mp h
  have hmod := hfits.written
  rw [hsplit, List.forall_mem_append] at hmod
  have hedit : r.edit = .error (.unresolved r.names.file r.signature) := by
    rw [Conflict.edit, show r.resolution = .none by simpa [Conflict.isResolved] using hr]
  have hresolved : ∀ r ∈ before, r.isResolved := by
    simpa using hbefore
  obtain ⟨chosen, hchosen, -⟩ := mapM_edit hresolved hmod.1
  rw [edits, hsplit, List.mapM_append, hchosen, List.mapM_cons, hedit]
  rfl

theorem Fits.allEdits (h : c.Fits s) : ∀ e ∈ c.allEdits, e.Fits s := by
  intro e he
  rcases List.mem_append.mp he with he | he
  · obtain ⟨r, hr, rfl⟩ := List.mem_map.mp he
    have hr := List.mem_of_mem_filter hr
    exact ⟨Nat.le_of_lt (h.nonempty r hr), (h.boundary r hr).1, (h.boundary r hr).2⟩
  · obtain ⟨a, ha, rfl⟩ := List.mem_map.mp he
    exact ⟨Nat.le_refl _, h.offset a ha, h.offset a ha⟩

/-- Only additions put text in and take none away. -/
theorem Fits.insertions (h : c.Fits s) (k : Nat) :
    (c.allEdits.filter fun e => e.start == k && e.stop == k) =
      (c.additions.filter (·.offset == k)).map Addition.edit := by
  have hwon : ((c.won.map Conflict.wonEdit).filter fun e => e.start == k && e.stop == k) = [] := by
    simp only [List.filter_eq_nil_iff, List.forall_mem_map, Conflict.wonEdit, Bool.and_eq_true, beq_iff_eq]
    intro r hr hk
    have := h.nonempty r (List.mem_of_mem_filter hr)
    omega
  rw [Changes.allEdits, List.filter_append, hwon, List.nil_append, List.filter_map]
  simp [Function.comp_def, Addition.edit]

/-- The rewriting of the changes is that of their edits. -/
theorem Fits.rewriting (h : c.Fits s) : Rewriting.ofEdits c.allEdits = c.rewriting := by
  have hreplaced (k : Nat) : (c.allEdits.filter fun e => e.start == k && decide (k < e.stop)) =
      (c.won.filter (·.span.1 == k)).map Conflict.wonEdit := by
    have hadded : ((c.additions.map Addition.edit).filter fun e => e.start == k && decide (k < e.stop)) = [] := by
      simp only [List.filter_eq_nil_iff, List.forall_mem_map, Addition.edit, Bool.and_eq_true, beq_iff_eq,
        decide_eq_true_eq]
      omega
    rw [Changes.allEdits, List.filter_append, hadded, List.append_nil, List.filter_map]
    refine congrArg (List.map _) (List.filter_congr fun r hr => ?_)
    have := h.nonempty r (List.mem_of_mem_filter hr)
    rw [Bool.eq_iff_iff]
    simp only [Function.comp_apply, Bool.and_eq_true, beq_iff_eq, decide_eq_true_eq]
    simp only [Conflict.wonEdit]
    omega
  have hcut (k : Nat) : (c.allEdits.any fun e => decide (e.start ≤ k) && decide (k < e.stop)) =
      c.won.any fun r => decide (r.span.1 ≤ k) && decide (k < r.span.2) := by
    have hadded : ((c.additions.map Addition.edit).any fun e =>
        decide (e.start ≤ k) && decide (k < e.stop)) = false := by
      simp only [List.any_map, List.any_eq_false, Function.comp_apply, Bool.and_eq_true, decide_eq_true_eq]
      simp only [Addition.edit]
      omega
    rw [Changes.allEdits, List.any_append, hadded, Bool.or_false, List.any_map]
    rfl
  simp only [Rewriting.ofEdits, Changes.rewriting, h.insertions, hreplaced, hcut, List.flatMap_map]
  rfl

/-- Changes collide when two of their edits reach into one another. -/
theorem pairwise_beside_iff : c.allEdits.Pairwise Edit.Beside ↔ ¬ c.Collides := by
  have hadded : (c.additions.map Addition.edit).Pairwise Edit.Beside :=
    List.pairwise_map.mpr (List.pairwise_of_forall fun a b => Nat.le_total _ _)
  rw [allEdits, List.pairwise_append, List.pairwise_map, and_iff_right hadded, Collides, not_or, not_not]
  simp only [List.forall_mem_map, not_exists, not_and]
  refine and_congr Iff.rfl (forall₄_congr fun r _ a _ => ?_)
  simp only [Edit.Beside, Conflict.wonEdit, Addition.edit]
  omega

theorem Rearranges.fits (h : c.Rearranges c') (hfits : c.Fits s) : c'.Fits s where
  nonempty r hr := hfits.nonempty r (h.conflicts.mem_iff.mpr hr)
  boundary r hr := hfits.boundary r (h.conflicts.mem_iff.mpr hr)
  written r hr := hfits.written r (h.conflicts.mem_iff.mpr hr)
  offset a ha := hfits.offset a (h.additions.mem_iff.mpr ha)

theorem Rearranges.unresolved (h : c.Rearranges c') (hc : c.unresolved = []) : c'.unresolved = [] :=
  List.Perm.eq_nil (hc ▸ (h.conflicts.filter _).symm)

theorem Rearranges.allEdits (h : c.Rearranges c') : c.allEdits.Perm c'.allEdits :=
  ((h.conflicts.filter _).map _).append (h.additions.map _)

end Changes

section Computed

variable {l : Language} {text text' : List Char} {base mod : Tree} {names : SourceNames}

theorem Changes.Fits.settledBy (h : c.Fits s) (choice : Conflict → Choice) : (c.settledBy choice).Fits s where
  nonempty := List.forall_mem_map.mpr h.nonempty
  boundary := List.forall_mem_map.mpr h.boundary
  written := List.forall_mem_map.mpr h.written
  offset := h.offset

/-- Computed changes cut the text in front of characters. -/
theorem fits_of_diff (hbase : l.parse text = .ok base) (hmod : l.parse text' = .ok mod)
    (h : diff names base mod = some c) : c.Fits base.source := by
  have hb := Language.wellFormed_of_parse hbase
  have hm := Language.wellFormed_of_parse hmod
  have hreported {r : Conflict} (hr : r ∈ c.conflicts) : Reported names base mod r :=
    (exactAt_of_diff hbase hmod h).mem_conflicts.mp hr
  refine ⟨fun r hr => ?_, fun r hr => ?_, fun r hr m hm' => ?_, fun a ha => ?_⟩
  · obtain ⟨hne, hstop, hspan⟩ := (hreported hr).bytes hb
    rw [Conflict.span, hspan]
    exact hb.laidOut.startAt_lt_endAt_of_lt hne (Nat.lt_of_lt_of_le hne hstop)
  · obtain ⟨-, -, hspan⟩ := (hreported hr).bytes hb
    rw [Conflict.span, hspan]
    exact ⟨hb.laidOut.boundary_startAt _, hb.laidOut.boundary_endAt _⟩
  · exact (hreported hr).written hm hm'
  · exact ((placedAt_of_diff hb hm h a ha).fits hb).start

end Computed

variable {base : Tree}

/-- The merged text is the base text with each construct that the mod wins replaced by the mod's, or cut,
and each addition put in at its place, several at one place in the order of the list and in front of
what is replaced there. There is none when a record is not settled, which is told of the first, or when the
changes collide. As soon as all records are settled it does not matter in which order they are listed, nor
in which order additions at different places are. -/
theorem materialize_splices (h : c.Fits base.source) :
    (∀ r rest, c.unresolved = r :: rest →
      materialize base c = .error (.unresolved r.names.file r.signature)) ∧
    (c.unresolved = [] →
      ((∃ k, materialize base c = .error (.overlap k)) ↔ c.Collides) ∧
      (¬ c.Collides → materialize base c = .ok (c.rewriting.apply 0 base.text)) ∧
      ∀ c', c.Rearranges c' → materialize base c' = materialize base c) := by
  have hspliced {c : Changes} (hfits : c.Fits base.source) (hc : c.unresolved = []) :
      materialize base c = splice base.text 0 (c.allEdits.mergeSort Edit.notAfter) := by
    rw [materialize, Changes.edits_of_resolved hfits hc]
    rfl
  refine ⟨fun r rest hr => ?_, fun hc => ?_⟩
  · rw [materialize, Changes.edits_of_unresolved h hr]
    rfl
  have hdone (hapart : ¬ c.Collides) : materialize base c = .ok (c.rewriting.apply 0 base.text) := by
    rw [hspliced h hc, ← h.rewriting]
    exact splice_of_pairwise_beside h.allEdits (Changes.pairwise_beside_iff.mpr hapart)
  refine ⟨⟨?_, fun hcollides => ?_⟩, hdone, fun c' hc' => ?_⟩
  · rintro ⟨k, hk⟩
    by_contra hapart
    rw [hdone hapart] at hk
    cases hk
  · rw [hspliced h hc]
    exact splice_of_not_beside h.allEdits (mt Changes.pairwise_beside_iff.mp (not_not.mpr hcollides))
  · rw [hspliced h hc, hspliced (hc'.fits h) (hc'.unresolved hc)]
    refine (splice_congr h.allEdits hc'.allEdits fun k => ?_).symm
    rw [h.insertions, (hc'.fits h).insertions, hc'.order]

end Records

set_option maxRecDepth 100000 in
theorem materialize_splices_changed_calls : ∃ base mod c,
    Language.script.parse "f(1); g(); k();".toList = .ok base ∧
    Language.script.parse "f(2); h(); k();".toList = .ok mod ∧
    diff ⟨"run.ndf", "game", "mod"⟩ base mod = some c ∧ c.Fits base.source ∧
    materialize base c = .error (.unresolved "run.ndf" "funCall:f") ∧
    materialize base (c.settledBy fun _ => .takeMod) = .ok "f(2); h();  k();".toList ∧
    materialize base ⟨(c.settledBy fun _ => .takeMod).conflicts.reverse, c.additions⟩ =
      .ok "f(2); h();  k();".toList := by
  obtain ⟨base, mod, c, hbase, hmod, hc, hcomputed⟩ := exists_diff
    (P := fun base _ c => c.unresolved.map (fun r => (r.names.file, r.signature)) ==
        [("run.ndf", "funCall:f"), ("run.ndf", "funCall:g")] &&
      (c.settledBy fun _ => .takeMod).unresolved.isEmpty && !decide (c.settledBy fun _ => .takeMod).Collides &&
      (c.settledBy fun _ => .takeMod).rewriting.apply 0 base.text == "f(2); h();  k();".toList)
    .script ⟨"run.ndf", "game", "mod"⟩ "f(1); g(); k();".toList "f(2); h(); k();".toList (by decide +kernel)
  simp only [Bool.and_eq_true, beq_iff_eq, List.isEmpty_iff, Bool.not_eq_true', decide_eq_false_iff_not]
    at hcomputed
  obtain ⟨⟨⟨hunresolved, hsettled⟩, hapart⟩, htext⟩ := hcomputed
  have hfits := fits_of_diff hbase hmod hc
  obtain ⟨hrefused, -⟩ := materialize_splices hfits
  obtain ⟨-, hdone⟩ := materialize_splices (hfits.settledBy fun _ => .takeMod)
  obtain ⟨-, hspliced, hsame⟩ := hdone hsettled
  refine ⟨base, mod, c, hbase, hmod, hc, hfits, ?_, htext ▸ hspliced hapart, ?_⟩
  · obtain ⟨r, rest, hr, hkey, -⟩ := List.map_eq_cons_iff.mp hunresolved
    rw [Prod.mk.injEq] at hkey
    rw [hrefused r rest hr, hkey.1, hkey.2]
  · rw [← htext, ← hspliced hapart]
    exact hsame _ ⟨(List.reverse_perm _).symm, .refl _, fun _ => rfl⟩

end ModWeave
