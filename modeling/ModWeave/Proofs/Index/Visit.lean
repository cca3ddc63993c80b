import ModWeave.Proofs.Disk.Writing
import ModWeave.Proofs.Index.Plan

/-!
Visits go by plan. A visit of a usable container that fails nowhere writes and registers what is planned
and nothing else; and where the disk has a spot for each file to be written, it fails nowhere.
-/
namespace ModWeave

/-- The entry of a file whose bytes are at a location. -/
def Occurrence.entry (f : Occurrence) (location : Location) : Entry := ⟨f.name, f.chain, location, f.size⟩

/-- The entry that is registered. -/
def Act.entry? (a : Act) : Option Entry := a.registers.map fun (f, location) => f.entry location

/-- The files that acts write. -/
def written (acts : List Act) : List Path := acts.filterMap Act.path?

theorem written_append (acts acts' : List Act) : written (acts ++ acts') = written acts ++ written acts' :=
  List.filterMap_append

theorem map_fst_writes (acts : List Act) :
    (acts.filterMap Act.writes).map Prod.fst = written acts := by
  rw [List.map_filterMap]
  rfl

namespace Visit

variable {d : Disk} {i : Index} {acts : List Act} {v : Visit} {path : Path} {size : Nat}
  {content : Content}

/-- A visit that set out from a disk and an index and has done some acts, none of which failed. -/
structure Has (d : Disk) (i : Index) (acts : List Act) (v : Visit) : Prop where
  failure : v.failure = none
  index : v.index = (acts.filterMap Act.entry?).foldl Index.register i
  disk : d.Gets (acts.filterMap Act.writes) v.disk

theorem Has.refl (d : Disk) (i : Index) : Has d i [] ⟨d, i, none⟩ where
  failure := rfl
  index := rfl
  disk := .refl d

theorem Has.fresh (h : Has d i acts v) : Has d i acts { v with disk := v.disk.fresh.2 } where
  failure := h.failure
  index := h.index
  disk := ⟨h.disk.refuses, h.disk.item?⟩

theorem write_of_hasSpot (h : v.disk.HasSpot path) (size : Nat) (content : Content) :
    ∃ d', v.write path size (some content) = { v with disk := d' } ∧
      v.disk.Puts path (if size = 0 then .empty else content) d' := by
  obtain ⟨d₁, d', hmade, hwritten, hputs⟩ := h.puts (if size = 0 then .empty else content)
  refine ⟨d', ?_, hputs⟩
  unfold Visit.write
  by_cases hsize : size = 0 <;> simp_all

/-- A write that does not fail has found a spot. -/
theorem hasSpot_of_write {content? : Option Content} (h : (v.write path size content?).failure = none) :
    v.disk.HasSpot path := by
  unfold Visit.write at h
  generalize (if size = 0 then some .empty else content?) = content? at h
  dsimp only at h
  split at h
  · cases h
  · next hmade =>
    split at h
    · next hwritten => exact Disk.hasSpot_of_write? hmade hwritten
    · cases h
    · cases h

/-- What was written without failure is there. -/
theorem read?_write {content? : Option Content} (h : (v.write path size content?).failure = none) :
    (v.write path size content?).disk.read? path =
      some ((if size = 0 then some .empty else content?).getD .empty) := by
  unfold Visit.write at h ⊢
  dsimp only at h ⊢
  split at h
  · cases h
  · split at h
    · next hwritten _ => simp [Disk.read?_write? hwritten]
    · cases h
    · cases h

theorem Has.hasSpot (h : Has d i acts v) {a : Act} (hhosts : d.Hosts (written (acts ++ [a])))
    (hpath : a.path? = some path) : v.disk.HasSpot path := by
  refine h.disk.hasSpot ?_
  rw [map_fst_writes]
  simpa [written, hpath] using hhosts

theorem Has.write (h : Has d i acts v) (hspot : v.disk.HasSpot path) (size : Nat) (content : Content) :
    ∃ d', v.write path size (some content) = { v with disk := d' } ∧ d'.serial = v.disk.serial ∧
      d.Gets (acts.filterMap Act.writes ++ [(path, if size = 0 then .empty else content)]) d' := by
  obtain ⟨d', hwrite, hputs⟩ := write_of_hasSpot hspot size content
  exact ⟨d', hwrite, hputs.serial, h.disk.puts hspot hputs⟩

theorem Has.file (h : Has d i acts v) {mode : IndexMode} {c : Container} {raw name : String}
    (hspot : mode = .extract → v.disk.HasSpot (c.target ++ EntryName.segments name)) :
    Has d i (acts ++ [.file mode c raw name size content]) (v.file mode c raw name size (some content)) ∧
      (v.file mode c raw name size (some content)).disk.serial = v.disk.serial := by
  cases mode with
  | index =>
    refine ⟨⟨h.failure, ?_, ?_⟩, rfl⟩
    · simp [Visit.file, h.index, Act.entry?, Act.file, Occurrence.entry]
    · simpa [Visit.file, Act.file] using h.disk
  | extract =>
    obtain ⟨d', hwrite, hserial, hgets⟩ := h.write (hspot rfl) size content
    simp only [Visit.file, hwrite, h.failure, Option.isSome_none, Bool.false_eq_true, ↓reduceIte]
    refine ⟨⟨rfl, ?_, ?_⟩, hserial⟩
    · simp [h.index, Act.entry?, Act.file, Occurrence.entry]
    · simpa [Act.file] using hgets

theorem hasSpot_of_file {c : Container} {raw name : String} {content? : Option Content}
    (h : (v.file .extract c raw name size content?).failure = none) :
    v.disk.HasSpot (c.target ++ EntryName.segments name) := by
  simp only [Visit.file] at h
  split at h
  · next hfailure => simp [h] at hfailure
  · exact hasSpot_of_write h

theorem Has.putAside (h : Has d i acts v) (hspot : v.disk.HasSpot path) (hsize : size ≠ 0) :
    Has d i (acts ++ [.putAside path content]) (v.write path size (some content)) ∧
      (v.write path size (some content)).disk.serial = v.disk.serial := by
  obtain ⟨d', hwrite, hserial, hgets⟩ := h.write hspot size content
  rw [if_neg hsize] at hgets
  rw [hwrite]
  refine ⟨⟨h.failure, ?_, ?_⟩, hserial⟩
  · simp [h.index, Act.entry?, Act.putAside, List.filterMap_cons]
  · simpa [Act.putAside] using hgets

end Visit

section Members

variable {mode : IndexMode} {c : Container} {members rest block : List Member}
  {blocks more : List (List Member)} {m : Member} {v : Visit}

/-- A visit goes on behind a member that made no failure. -/
theorem visitMembers_cons (hm : (m.visit mode c v).failure = none) :
    visitMembers mode c (m :: rest) v = visitMembers mode c rest (m.visit mode c v) := by
  simp [visitMembers, hm]

/-- Where a visit of members ends without a failure there was none at the first of them. -/
theorem failure_of_visitMembers_cons (h : (visitMembers mode c (m :: rest) v).failure = none) :
    (m.visit mode c v).failure = none := by
  rw [visitMembers] at h
  split at h
  · exact h
  · next hnone => simpa using hnone

theorem visitMembers_append (h : (visitMembers mode c members v).failure = none) :
    visitMembers mode c (members ++ rest) v = visitMembers mode c rest (visitMembers mode c members v) := by
  induction members generalizing v with
  | nil => rfl
  | cons m others ih =>
    have hm := failure_of_visitMembers_cons h
    rw [visitMembers_cons hm] at h ⊢
    rw [List.cons_append, visitMembers_cons hm, ih h]

theorem failure_of_visitMembers_append (hv : v.failure = none)
    (h : (visitMembers mode c (members ++ rest) v).failure = none) :
    (visitMembers mode c members v).failure = none := by
  induction members generalizing v with
  | nil => exact hv
  | cons m others ih =>
    have hm := failure_of_visitMembers_cons h
    rw [List.cons_append, visitMembers_cons hm] at h
    rw [visitMembers_cons hm]
    exact ih hm h

/-! A block is left without a failure, with one at which its container is left, or with another one. -/

theorem visitBlocks_of_passed (h : (visitMembers mode c block { v with failure := none }).failure = none) :
    visitBlocks mode c (block :: more) v =
      visitBlocks mode c more { visitMembers mode c block { v with failure := none } with failure := v.failure } := by
  simp [visitBlocks, h]

theorem visitBlocks_of_left {e : ArchiveError}
    (h : (visitMembers mode c block { v with failure := none }).failure = some e) (hleft : c.isLeftAt e = true) :
    visitBlocks mode c (block :: more) v = visitMembers mode c block { v with failure := none } := by
  simp [visitBlocks, h, hleft]

theorem visitBlocks_of_failed {e : ArchiveError}
    (h : (visitMembers mode c block { v with failure := none }).failure = some e) (hleft : ¬ c.isLeftAt e = true) :
    visitBlocks mode c (block :: more) v =
      visitBlocks mode c more (visitMembers mode c block { v with failure := none }) := by
  simp [visitBlocks, h, hleft]

/-- A failure is not forgotten: where a visit of blocks ends without one, there was none before and is none in the first
of them. -/
theorem failure_of_visitBlocks_cons (h : (visitBlocks mode c (block :: more) v).failure = none)
    (hmore : ∀ u : Visit, (visitBlocks mode c more u).failure = none → u.failure = none) :
    v.failure = none ∧ (visitMembers mode c block { v with failure := none }).failure = none := by
  cases hblock : (visitMembers mode c block { v with failure := none }).failure with
  | none =>
    rw [visitBlocks_of_passed hblock] at h
    have hkept := hmore _ h
    exact ⟨hkept, rfl⟩
  | some e =>
    by_cases hleft : c.isLeftAt e = true
    · rw [visitBlocks_of_left hblock hleft, hblock] at h
      cases h
    · rw [visitBlocks_of_failed hblock hleft] at h
      exact absurd (hmore _ h) (by simp [hblock])

theorem failure_of_visitBlocks (h : (visitBlocks mode c blocks v).failure = none) : v.failure = none := by
  induction blocks generalizing v with
  | nil => exact h
  | cons block more ih => exact (failure_of_visitBlocks_cons h fun _ => ih).1

theorem Visit.forget_of_failure (hv : v.failure = none) : { v with failure := none } = v := by
  rw [← hv]

/-- A visit that had no failure goes on behind a block that makes none. -/
theorem visitBlocks_cons (hv : v.failure = none) (hblock : (visitMembers mode c block v).failure = none) :
    visitBlocks mode c (block :: more) v = visitBlocks mode c more (visitMembers mode c block v) := by
  have hclean : { v with failure := none } = v := Visit.forget_of_failure hv
  rw [visitBlocks_of_passed (by rwa [hclean]), hclean, hv, ← hblock]

theorem visitBlocks_cons_of_failure (h : (visitBlocks mode c (block :: more) v).failure = none) :
    (visitMembers mode c block v).failure = none ∧
      visitBlocks mode c (block :: more) v = visitBlocks mode c more (visitMembers mode c block v) := by
  obtain ⟨hv, hblock⟩ := failure_of_visitBlocks_cons h fun _ => failure_of_visitBlocks
  rw [Visit.forget_of_failure hv] at hblock
  exact ⟨hblock, visitBlocks_cons hv hblock⟩

/-- A visit of blocks that does not fail is one of their members, one after the other. -/
theorem visitBlocks_of_failure (h : (visitBlocks mode c blocks v).failure = none) :
    visitBlocks mode c blocks v = visitMembers mode c blocks.flatten v := by
  induction blocks generalizing v with
  | nil => rfl
  | cons block more ih =>
    obtain ⟨hblock, hcons⟩ := visitBlocks_cons_of_failure h
    rw [hcons] at h ⊢
    rw [List.flatten_cons, visitMembers_append hblock, ih h]

/-- Blocks do not fail whose members, one after the other, do not. -/
theorem failure_visitBlocks (hv : v.failure = none)
    (h : (visitMembers mode c blocks.flatten v).failure = none) :
    (visitBlocks mode c blocks v).failure = none := by
  induction blocks generalizing v with
  | nil => exact hv
  | cons block more ih =>
    rw [List.flatten_cons] at h
    have hblock := failure_of_visitMembers_append hv h
    rw [visitMembers_append hblock] at h
    rw [visitBlocks_cons hv hblock]
    exact ih hblock h

theorem Content.visit_packed {format : Format} {bytes : ByteArray} (h : c.format = format) :
    (Content.packed format bytes blocks).visit mode c v = visitBlocks mode c blocks v := by
  rw [Content.visit, if_pos h.symm]

/-- Draining makes a failure, or nothing at all. -/
theorem Visit.drain_of_failure (h : (v.drain c).failure = none) : v.drain c = v := by
  unfold Visit.drain at h ⊢
  split_ifs at h ⊢
  · cases h
  · rfl

/-- The visit of a container in a container: it is put aside, and if that went well and there are bytes, it is visited
in the copy. -/
theorem Member.visit_announced {raw name : String} {format : Format} (size : Nat) (content : Content)
    (hname : EntryName.normalize? raw = some name) (hformat : Format.ofName? name = some format) :
    (Member.intact raw false size content).visit mode c v =
      let aside := c.nested v.disk.serial name format
      let after := { v with disk := v.disk.fresh.2 }.write aside.path size (some content)
      if after.failure.isSome then after
      else if size = 0 then after.fail (.malformed aside.shown (.notFormat format))
      else content.visit mode aside after := by
  simp only [Member.visit, hname, hformat, Visit.enter_nested _ _ _ hformat]
  rfl

/-- The visit of a container in a container, once that has been put aside. -/
theorem Member.visit_container {raw name : String} {format : Format} {size : Nat} {content : Content}
    (hname : EntryName.normalize? raw = some name) (hformat : Format.ofName? name = some format)
    (hsize : size ≠ 0)
    (haside : ({ v with disk := v.disk.fresh.2 }.write (c.nested v.disk.serial name format).path size
      (some content)).failure = none) :
    (Member.intact raw false size content).visit mode c v =
      content.visit mode (c.nested v.disk.serial name format)
        ({ v with disk := v.disk.fresh.2 }.write (c.nested v.disk.serial name format).path size
          (some content)) := by
  simp [Member.visit_announced size content hname hformat, haside, hsize]

/-- Where the visit of a container in a container does not fail, that is not stated to have no bytes and
could be put aside. -/
theorem Member.aside_of_visit_container {raw name : String} {format : Format} {size : Nat}
    {content : Content} (hname : EntryName.normalize? raw = some name)
    (hformat : Format.ofName? name = some format)
    (h : ((Member.intact raw false size content).visit mode c v).failure = none) :
    size ≠ 0 ∧ ({ v with disk := v.disk.fresh.2 }.write (c.nested v.disk.serial name format).path size
      (some content)).failure = none := by
  rw [Member.visit_announced size content hname hformat] at h
  dsimp only at h
  split at h
  · next hfailed => simp [h] at hfailed
  · next haside =>
    refine ⟨?_, by simpa using haside⟩
    rintro rfl
    cases h

theorem Member.visit_of_isFolder (h : m.isFolder = true) : m.visit mode c v = v := by
  unfold Member.visit
  split <;> first | rfl | cases h

end Members

/-- A file as a member, damaged where nothing is known of what it holds. -/
def Member.ofFile (raw : String) (size : Nat) : Option Content → Member
  | some content => .intact raw false size content
  | none => .damaged raw false size

/-- A visit of members, one after the other, none of which fails: from the visit before them to the one behind. -/
inductive PassAll (mode : IndexMode) : Container → List Member → Visit → Visit → Prop
  | nil {c : Container} {v : Visit} : PassAll mode c [] v v
  | folder {c : Container} {m : Member} {rest : List Member} {v w : Visit} (hfolder : m.isFolder = true)
      (more : PassAll mode c rest v w) : PassAll mode c (m :: rest) v w
  | file {c : Container} {raw name : String} {size : Nat} {content? : Option Content} {rest : List Member}
      {v w : Visit} (hname : EntryName.normalize? raw = some name) (hformat : Format.ofName? name = none)
      (hends : (v.file mode c raw name size content?).failure = none)
      (more : PassAll mode c rest (v.file mode c raw name size content?) w) :
      PassAll mode c (.ofFile raw size content? :: rest) v w
  | container {c : Container} {raw name : String} {format : Format} {size : Nat} {bytes : ByteArray}
      {blocks : List (List Member)} {rest : List Member} {v u w : Visit}
      (hname : EntryName.normalize? raw = some name) (hformat : Format.ofName? name = some format) (hsize : size ≠ 0)
      (inside : PassAll mode (c.nested v.disk.serial name format) blocks.flatten
        ({ v with disk := v.disk.fresh.2 }.write (c.nested v.disk.serial name format).path size
          (some (.packed format bytes blocks))) u)
      (more : PassAll mode c rest u w) :
      PassAll mode c (.intact raw false size (.packed format bytes blocks) :: rest) v w

theorem PassAll.append {mode : IndexMode} {c : Container} {members rest : List Member} {v u w : Visit}
    (h : PassAll mode c members v u) (h' : PassAll mode c rest u w) : PassAll mode c (members ++ rest) v w := by
  induction members generalizing v with
  | nil => cases h; exact h'
  | cons m others ih =>
    cases h with
    | folder hfolder more => exact .folder hfolder (ih more)
    | file hname hformat hends more => exact .file hname hformat hends (ih more)
    | container hname hformat hsize inside more => exact .container hname hformat hsize inside (ih more)

mutual

/-- A container whose visit does not fail is one of its format, and none of its members fails. -/
theorem Content.passAll_visit {mode : IndexMode} {c : Container} {content : Content} {v : Visit}
    (h : (content.visit mode c v).failure = none) : ∃ bytes blocks,
      content = .packed c.format bytes blocks ∧ PassAll mode c blocks.flatten v (content.visit mode c v) := by
  match content with
  | .plain _ | .contradictory .. => simp [Content.visit, Visit.fail] at h
  | .packed format bytes blocks =>
    rw [Content.visit] at h ⊢
    split_ifs at h ⊢ with hformat
    · subst hformat
      exact ⟨bytes, blocks, rfl, passAll_visitBlocks h⟩
    · cases h

theorem passAll_visitBlocks {mode : IndexMode} {c : Container} {blocks : List (List Member)} {v : Visit}
    (h : (visitBlocks mode c blocks v).failure = none) :
    PassAll mode c blocks.flatten v (visitBlocks mode c blocks v) := by
  match blocks with
  | [] => exact .nil
  | block :: more =>
    obtain ⟨hblock, hcons⟩ := visitBlocks_cons_of_failure h
    rw [hcons] at h ⊢
    exact (passAll_visitMembers hblock).append (passAll_visitBlocks h)

theorem passAll_visitMembers {mode : IndexMode} {c : Container} {members : List Member} {v : Visit}
    (h : (visitMembers mode c members v).failure = none) :
    PassAll mode c members v (visitMembers mode c members v) := by
  match members with
  | [] => exact .nil
  | m :: rest =>
    have hm := failure_of_visitMembers_cons h
    have hcons : visitMembers mode c (m :: rest) v = visitMembers mode c rest (m.visit mode c v) :=
      visitMembers_cons hm
    rw [hcons] at h ⊢
    exact (Member.passAll_visit hm).append (passAll_visitMembers h)

theorem Member.passAll_visit {mode : IndexMode} {c : Container} {m : Member} {v : Visit}
    (h : (m.visit mode c v).failure = none) : PassAll mode c [m] v (m.visit mode c v) := by
  match m with
  | .intact _ true .. | .damaged _ true _ => exact .folder rfl .nil
  | .unreadable _ | .contradictory _ => cases h
  | .damaged raw false size =>
    cases hname : EntryName.normalize? raw with
    | none => simp [Member.visit, hname, Visit.fail] at h
    | some name =>
      cases hformat : Format.ofName? name with
      | none =>
        simp only [Member.visit, hname, hformat] at h ⊢
        have hdrained := Visit.drain_of_failure h
        rw [hdrained] at h ⊢
        exact .file hname hformat h .nil
      | some format =>
        -- A damaged container fails when it is put aside, or else when it is opened, as there are no bytes.
        simp only [Member.visit, hname, hformat, Visit.enter_nested _ _ _ hformat] at h
        split at h
        · next hfailed => simp [h] at hfailed
        · cases h
  | .intact raw false size content =>
    cases hname : EntryName.normalize? raw with
    | none => simp [Member.visit, hname, Visit.fail] at h
    | some name =>
      cases hformat : Format.ofName? name with
      | none =>
        simp only [Member.visit, hname, hformat] at h ⊢
        exact .file hname hformat h .nil
      | some format =>
        obtain ⟨hsize, haside⟩ := Member.aside_of_visit_container hname hformat h
        rw [Member.visit_container hname hformat hsize haside] at h ⊢
        obtain ⟨bytes, blocks, hpacked, hinside⟩ := Content.passAll_visit h
        rw [Container.nested_format] at hpacked
        subst hpacked
        exact .container hname hformat hsize hinside .nil

end

/-- Whether a visit of a member that does not fail goes by plan, wherever it starts. -/
def Member.GoesByPlan (m : Member) : Prop :=
  ∀ (mode : IndexMode) (c : Container) (d : Disk) (i : Index) (acts : List Act) (v : Visit),
    v.Has d i acts → (m.visit mode c v).failure = none →
    (m.visit mode c v).Has d i (acts ++ m.plan mode c v.disk.serial) ∧
      (m.visit mode c v).disk.serial = v.disk.serial + m.nestedCount

theorem visitMembers_goesByPlan {members : List Member} (h : ∀ m ∈ members, m.GoesByPlan)
    {mode : IndexMode} {c : Container} {d : Disk} {i : Index} {acts : List Act} {v : Visit}
    (hv : v.Has d i acts) (hends : (visitMembers mode c members v).failure = none) :
    (visitMembers mode c members v).Has d i (acts ++ planOf mode c v.disk.serial members) ∧
      (visitMembers mode c members v).disk.serial = v.disk.serial + nestedCountOf members := by
  induction members generalizing v acts with
  | nil => simpa [visitMembers, planOf, nestedCountOf] using hv
  | cons m rest ih =>
    rw [List.forall_mem_cons] at h
    have hm := failure_of_visitMembers_cons hends
    obtain ⟨hafter, hserial⟩ := h.1 mode c d i acts v hv hm
    rw [visitMembers_cons hm] at hends ⊢
    rw [planOf, nestedCountOf, ← List.append_assoc, ← Nat.add_assoc, ← hserial]
    exact ih h.2 hafter hends

theorem Member.IsUsable.goesByPlan {m : Member} (hm : m.IsUsable) : m.GoesByPlan := by
  induction hm with
  | folder hfolder =>
    intro mode c d i acts v hv _
    simpa [Member.plan_of_isFolder hfolder, Member.visit_of_isFolder hfolder,
      Member.nestedCount_of_isFolder hfolder] using hv
  | file hname hformat =>
    intro mode c d i acts v hv hends
    simp only [Member.plan, Member.visit, Member.nestedCount, hname, hformat, Option.bind_some]
      at hends ⊢
    refine hv.file ?_
    rintro rfl
    exact Visit.hasSpot_of_file hends
  | container hname hformat hsize _ ih =>
    intro mode c d i acts v hv hends
    obtain ⟨-, haside⟩ := Member.aside_of_visit_container hname hformat hends
    rw [Member.visit_container hname hformat hsize haside,
      Content.visit_packed (Container.nested_format ..)] at hends ⊢
    obtain ⟨hput, hserial⟩ := hv.fresh.putAside (Visit.hasSpot_of_write haside) hsize
    have hstart : v.disk.serial + 1 = v.disk.fresh.2.serial := rfl
    have hflat := visitBlocks_of_failure hends
    rw [hflat] at hends ⊢
    simp only [Member.plan, Content.plan, planOfBlocks_eq, Member.nestedCount, Content.nestedCount,
      nestedCountOfBlocks_eq, hname, hformat, Option.bind_some]
    rw [List.append_cons, Nat.add_comm (nestedCountOf _), ← Nat.add_assoc, hstart, ← hserial]
    exact visitMembers_goesByPlan ih hput hends

/-- A visit of a usable container that does not fail does what is planned. -/
theorem Content.IsUsable.visit {content : Content} {c : Container} (h : content.IsUsable c.format)
    {mode : IndexMode} {d : Disk} {i : Index}
    (hends : (content.visit mode c ⟨d, i, none⟩).failure = none) :
    (content.visit mode c ⟨d, i, none⟩).Has d i (content.plan mode c d.serial) := by
  obtain ⟨hmembers⟩ := h
  rw [Content.visit_packed rfl] at hends ⊢
  have hflat := visitBlocks_of_failure hends
  rw [hflat] at hends ⊢
  rw [Content.plan, planOfBlocks_eq]
  exact (visitMembers_goesByPlan (fun m hm => (hmembers m hm).goesByPlan) (.refl d i) hends).1

/-- Whether a visit of a member does not fail on a disk that has room for it. -/
def Member.EndsWell (m : Member) : Prop :=
  ∀ (mode : IndexMode) (c : Container) (d : Disk) (i : Index) (acts : List Act) (v : Visit),
    v.Has d i acts → d.Hosts (written (acts ++ m.plan mode c v.disk.serial)) →
    (m.visit mode c v).failure = none

theorem visitMembers_endsWell {members : List Member} (husable : ∀ m ∈ members, m.IsUsable)
    (h : ∀ m ∈ members, m.EndsWell) {mode : IndexMode} {c : Container} {d : Disk} {i : Index}
    {acts : List Act} {v : Visit} (hv : v.Has d i acts)
    (hhosts : d.Hosts (written (acts ++ planOf mode c v.disk.serial members))) :
    (visitMembers mode c members v).failure = none := by
  induction members generalizing v acts with
  | nil => simpa [visitMembers] using hv.failure
  | cons m rest ih =>
    rw [List.forall_mem_cons] at h husable
    rw [planOf, ← List.append_assoc] at hhosts
    have hm := h.1 mode c d i acts v hv
      (hhosts.mono (by rw [written_append _ (planOf ..)]; exact List.subset_append_left _ _))
    obtain ⟨hafter, hserial⟩ := husable.1.goesByPlan mode c d i acts v hv hm
    rw [visitMembers_cons hm]
    rw [← hserial] at hhosts
    exact ih husable.2 h.2 hafter hhosts

theorem Member.IsUsable.endsWell {m : Member} (hm : m.IsUsable) : m.EndsWell := by
  induction hm with
  | folder hfolder =>
    intro mode c d i acts v hv _
    rw [Member.visit_of_isFolder hfolder]
    exact hv.failure
  | file hname hformat =>
    intro mode c d i acts v hv hhosts
    simp only [Member.plan, Member.visit, hname, hformat] at hhosts ⊢
    refine (hv.file ?_).1.failure
    rintro rfl
    exact hv.hasSpot hhosts rfl
  | container hname hformat hsize hmembers ih =>
    intro mode c d i acts v hv hhosts
    simp only [Member.plan, Content.plan, planOfBlocks_eq, hname, hformat] at hhosts
    rw [List.append_cons] at hhosts
    obtain ⟨hput, hserial⟩ := hv.fresh.putAside (hv.fresh.hasSpot
      (hhosts.mono (by rw [written_append _ (planOf ..)]; exact List.subset_append_left _ _)) rfl) hsize
    have hstart : v.disk.serial + 1 = v.disk.fresh.2.serial := rfl
    rw [Member.visit_container hname hformat hsize hput.failure,
      Content.visit_packed (Container.nested_format ..)]
    rw [hstart, ← hserial] at hhosts
    exact failure_visitBlocks hput.failure (visitMembers_endsWell hmembers ih hput hhosts)

/-- A visit of a sound container that the disk has room for does what is planned, without a failure. -/
theorem Content.IsSound.visit {content : Content} {c : Container} (h : content.IsSound c.format)
    {mode : IndexMode} {d : Disk} (hhosts : d.Hosts (written (content.plan mode c d.serial)))
    (i : Index) : (content.visit mode c ⟨d, i, none⟩).Has d i (content.plan mode c d.serial) := by
  refine h.isUsable.visit ?_
  obtain ⟨hmembers⟩ := h.isUsable
  rw [Content.visit_packed rfl]
  rw [Content.plan, planOfBlocks_eq] at hhosts
  exact failure_visitBlocks rfl <| visitMembers_endsWell hmembers (fun m hm => (hmembers m hm).endsWell) (.refl d i) hhosts

end ModWeave
