import ModWeave.Proofs.Disk.Confining
import ModWeave.Proofs.Index.Agreement

/-!
Where a visit writes. Names in an archive are whatever its author wrote; what comes of them leads down, so that every
path a visit puts together lies strictly below the folder it was given.
-/
namespace ModWeave

namespace EntryName

variable {raw name s : String}

/-- The segments of a normalized name are the steps of the name it was made of. -/
theorem segments_of_normalize? (h : normalize? raw = some name) : segments name = (steps raw).map String.ofList := by
  unfold normalize? at h
  dsimp only at h
  split at h
  · cases h
  · next hsafe =>
    obtain rfl := Option.some.inj h
    rw [segments, String.toList_ofList, Text.segments_joinWith fun hnil => hsafe (.inl hnil)]
    intro s hs hc
    simpa [isSlash] using Text.not_mem_of_mem_segments (List.mem_filter.1 hs).1 _ hc

/-- A normalized name leads down, one segment after the other. -/
theorem leadsDown_of_normalize? (h : normalize? raw = some name) (hs : s ∈ segments name) : Path.LeadsDown s := by
  rw [segments_of_normalize? h] at hs
  obtain ⟨cs, hcs, rfl⟩ := List.mem_map.1 hs
  obtain ⟨hmem, hkept⟩ := List.mem_filter.1 hcs
  obtain ⟨hempty, hhere⟩ := of_decide_eq_true hkept
  refine ⟨?_, fun he => hempty ?_, fun he => hhere ?_, fun he => ?_⟩
  · rw [String.toList_ofList]
    intro hc
    simpa [isSlash] using Text.not_mem_of_mem_segments hmem _ hc
  · simpa using congrArg String.toList he
  · simpa using congrArg String.toList he
  · unfold normalize? at h
    dsimp only at h
    split at h
    · cases h
    · next hsafe =>
      have hup : cs = ['.', '.'] := by simpa using congrArg String.toList he
      exact hsafe (.inr (hup ▸ hcs))

/-- A name is unsafe if one of its segments leads up, or none leads anywhere. -/
theorem normalize?_eq_none_iff : normalize? raw = none ↔ ['.', '.'] ∈ Text.segments isSlash raw.toList ∨
    ∀ cs ∈ Text.segments isSlash raw.toList, cs = [] ∨ cs = ['.'] := by
  have hsteps : steps raw = [] ↔ ∀ cs ∈ Text.segments isSlash raw.toList, cs = [] ∨ cs = ['.'] := by
    simp only [steps, List.filter_eq_nil_iff, decide_eq_true_eq, not_and_or, ne_eq, not_not]
  have hup : ['.', '.'] ∈ steps raw ↔ ['.', '.'] ∈ Text.segments isSlash raw.toList := by
    simp [steps]
  unfold normalize?
  simp only [hup, hsteps]
  split
  · next h => exact iff_of_true rfl h.symm
  · next h => exact iff_of_false (Option.some_ne_none _) fun h' => h h'.symm

/-- A safe name is normalized to names that lead down with single slashes between them, and then stays as it is. -/
theorem exists_segments_of_normalize? (h : normalize? raw = some name) : ∃ names : List String, names ≠ [] ∧
    (∀ s ∈ names, Path.LeadsDown s ∧ '\\' ∉ s.toList) ∧ name = "/".intercalate names ∧ normalize? name = some name := by
  have hdown : ∀ s ∈ segments name, Path.LeadsDown s := fun _ => leadsDown_of_normalize? h
  have hback : ∀ s ∈ segments name, '\\' ∉ s.toList := fun _ =>
    noBackslash_of_mem_segments (noBackslash_of_normalize? h)
  have htext : Path.text (segments name) = name :=
    String.toList_injective ((Path.toList_text _).trans (joinWith_segments name))
  refine ⟨segments name, segments_ne_nil name, fun s hs => ⟨hdown s hs, hback s hs⟩, htext.symm, ?_⟩
  have hagain := Path.normalize?_text (segments_ne_nil name) hdown hback
  rwa [htext] at hagain

end EntryName

namespace Path

/-- A path that a folder's path goes on to by names that lead down. -/
def IsWithin (path folder : Path) : Prop :=
  ∃ rest : List String, (∀ name ∈ rest, LeadsDown name) ∧ path = folder ++ rest

/-- A path strictly below a folder: at least one name further, and each name leads down. -/
def IsBelow (path folder : Path) : Prop :=
  ∃ rest : List String, rest ≠ [] ∧ (∀ name ∈ rest, LeadsDown name) ∧ path = folder ++ rest

variable {path folder q : Path} {names : List String}

theorem IsWithin.refl (folder : Path) : folder.IsWithin folder := ⟨[], List.forall_mem_nil _, by simp⟩

theorem IsWithin.append (h : path.IsWithin folder) (hnames : ∀ name ∈ names, LeadsDown name) :
    (path ++ names).IsWithin folder := by
  obtain ⟨rest, hrest, rfl⟩ := h
  exact ⟨rest ++ names, List.forall_mem_append.2 ⟨hrest, hnames⟩, by simp⟩

theorem IsWithin.append_of_ne_nil (h : path.IsWithin folder) (hnames : ∀ name ∈ names, LeadsDown name)
    (hne : names ≠ []) : (path ++ names).IsBelow folder := by
  obtain ⟨rest, hrest, rfl⟩ := h
  exact ⟨rest ++ names, by simp [hne], List.forall_mem_append.2 ⟨hrest, hnames⟩, by simp⟩

/-- What lies on the way to a path below a folder is below the folder as well, or on the way to it. -/
theorem IsBelow.of_isPrefix (h : path.IsBelow folder) (hq : q <+: path) : q.IsBelow folder ∨ q <+: folder := by
  obtain ⟨rest, -, hdown, rfl⟩ := h
  obtain hshort | hlong := le_total q.length folder.length
  · exact .inr (List.prefix_of_prefix_length_le hq (List.prefix_append _ _) hshort)
  · obtain ⟨more, rfl⟩ := List.prefix_of_prefix_length_le (List.prefix_append folder rest) hq hlong
    obtain rfl | hne := eq_or_ne more []
    · exact .inr (by simp)
    · obtain ⟨after, hafter⟩ := (List.prefix_append_right_inj folder).1 hq
      exact .inl ⟨more, hne, fun name hname => hdown name (hafter ▸ List.mem_append_left _ hname), rfl⟩

/-- Whether all paths are allowed that lie below a folder or on the way to it. -/
def Admits (allowed : Path → Bool) (folder : Path) : Prop :=
  ∀ q : Path, q.IsBelow folder ∨ q <+: folder → allowed q = true

theorem Admits.of_isPrefix {allowed : Path → Bool} (h : Admits allowed folder) (hpath : path.IsBelow folder)
    (hq : q <+: path) : allowed q = true := h q (hpath.of_isPrefix hq)

end Path

/-- What is done to a disk changes no file but below a folder, and goes the same where no other path may be written
to. -/
structure Disk.StaysBelow {α : Type} (folder : Path) (f : Disk → α × Disk) (d : Disk) : Prop where
  read? : ∀ q : Path, ¬ q.IsBelow folder → (f d).2.read? q = d.read? q
  confine : ∀ allowed, Path.Admits allowed folder → f (d.confine allowed) = ((f d).1, (f d).2.confine allowed)

namespace Container

variable {c : Container} {folder : Path} {name : String} {format : Format}

theorem leadsDown_nestedFolder (time number : Nat) (name : String) :
    Path.LeadsDown (nestedFolder time number name) := by
  have hdigits (n : Nat) : '/' ∉ Nat.toDigits 10 n := fun hmem =>
    absurd (Nat.isDigit_of_mem_toDigits (by decide) (by decide) hmem) (by decide)
  have hstart : ∃ rest, (nestedFolder time number name).toList = '_' :: rest := ⟨_, toList_nestedFolder time number name⟩
  obtain ⟨rest, hrest⟩ := hstart
  refine ⟨?_, ?_, ?_, ?_⟩
  · simp only [toList_nestedFolder, List.mem_append, List.mem_cons]
    rintro (h | h | h | h | h | h)
    · exact absurd h (by decide)
    · exact hdigits time h
    · exact absurd h (by decide)
    · exact hdigits number h
    · exact absurd h (by decide)
    · exact EntryName.noSlash_sanitize _ h
  all_goals
    intro h
    rw [h] at hrest
    exact absurd hrest (by simp)

/-- A container in another one is put aside strictly below the folder. -/
theorem isBelow_nested (h : c.target.IsWithin folder) (number : Nat) (hformat : Format.ofName? name = some format) :
    (c.nested number name format).path.IsBelow folder := by
  have hnames : ∀ s ∈ [nestedFolder (c.clock number) number name, "source",
      EntryName.sanitize (EntryName.base name)], Path.LeadsDown s := by
    simp only [List.forall_mem_cons]
    exact ⟨leadsDown_nestedFolder _ number name, ⟨by decide, by decide, by decide, by decide⟩,
      Format.leadsDown_sanitize hformat, List.forall_mem_nil _⟩
  simpa [nested] using h.append_of_ne_nil hnames (by simp)

theorem isWithin_nested (h : c.target.IsWithin folder) (number : Nat) (name : String) (format : Format) :
    (c.nested number name format).target.IsWithin folder := by
  have hnames : ∀ s ∈ [nestedFolder (c.clock number) number name, "files"], Path.LeadsDown s := by
    simp only [List.forall_mem_cons]
    exact ⟨leadsDown_nestedFolder _ number name, ⟨by decide, by decide, by decide, by decide⟩, List.forall_mem_nil _⟩
  simpa [nested] using h.append hnames

end Container

namespace Visit

/-- The visit with all but some paths refused as well. -/
def confine (v : Visit) (allowed : Path → Bool) : Visit := { v with disk := v.disk.confine allowed }

/-- What is done in a visit changes no file but below a folder, and goes the same where no other path may be written
to. -/
structure StaysBelow (folder : Path) (f : Visit → Visit) (v : Visit) : Prop where
  read? : ∀ q : Path, ¬ q.IsBelow folder → (f v).disk.read? q = v.disk.read? q
  confine : ∀ allowed, Path.Admits allowed folder → f (v.confine allowed) = (f v).confine allowed

variable {v : Visit} {folder path : Path} {size : Nat} {content? : Option Content} {f : Visit → Visit}

theorem staysBelow_fail (folder : Path) (e : ArchiveError) (v : Visit) : StaysBelow folder (·.fail e) v :=
  ⟨fun _ _ => rfl, fun _ _ => rfl⟩

/-- One thing done behind another stays below the folder as both do. -/
theorem StaysBelow.comp {g : Visit → Visit} (hf : StaysBelow folder f v) (hg : StaysBelow folder g (f v)) :
    StaysBelow folder (fun v => g (f v)) v where
  read? q hq := (hg.read? q hq).trans (hf.read? q hq)
  confine allowed h := by
    rw [hf.confine allowed h, hg.confine allowed h]

theorem staysBelow_drain (folder : Path) (c : Container) (v : Visit) : StaysBelow folder (·.drain c) v where
  read? q _ := by
    unfold drain
    split <;> rfl
  confine allowed _ := by
    unfold drain
    by_cases hfails : c.format = .sevenZ ∧ v.failure.isNone
    · rw [if_pos hfails]
      exact if_pos hfails
    · rw [if_neg hfails]
      exact if_neg hfails

theorem staysBelow_write (v : Visit) (hpath : path.IsBelow folder) (size : Nat) (content? : Option Content) :
    StaysBelow folder (·.write path size content?) v where
  read? q hq := by
    have hne : q ≠ path := fun h => hq (h ▸ hpath)
    unfold write
    dsimp only
    split
    · rfl
    · next d hmade =>
      have hsame := Disk.read?_makeFolders? hmade q
      split
      · next hwritten _ => rw [← hsame, Disk.read?_write? hwritten, if_neg hne]
      · next hwritten _ => rw [← hsame, Disk.read?_write? hwritten, if_neg hne]
      · exact hsame
  confine allowed h := by
    have hway : ∀ q, q <+: path.dropLast → allowed q = true := fun q hq =>
      h.of_isPrefix hpath (hq.trans (List.dropLast_prefix path))
    have hend : allowed path = true := h.of_isPrefix hpath List.prefix_rfl
    unfold write
    dsimp only [Visit.confine]
    rw [Disk.makeFolders?_confine _ hway]
    cases v.disk.makeFolders? path.dropLast with
    | none => rfl
    | some d =>
      dsimp only [Option.map_some]
      rw [Disk.write?_confine _ hend]
      cases d.write? path ((if size = 0 then some .empty else content?).getD .empty) with
      | none => rfl
      | some d' => cases (if size = 0 then some .empty else content?) <;> rfl

theorem staysBelow_file {mode : IndexMode} {c : Container} {raw name : String} (v : Visit)
    (hname : EntryName.normalize? raw = some name) (hc : c.target.IsWithin folder) (size : Nat)
    (content? : Option Content) : StaysBelow folder (·.file mode c raw name size content?) v := by
  cases mode with
  | index => exact ⟨fun _ _ => rfl, fun _ _ => rfl⟩
  | extract =>
    have hbelow : (c.target ++ EntryName.segments name).IsBelow folder :=
      hc.append_of_ne_nil (fun _ => EntryName.leadsDown_of_normalize? hname) (EntryName.segments_ne_nil name)
    have hwritten := staysBelow_write v hbelow size content?
    refine ⟨fun q hq => ?_, fun allowed h => ?_⟩
    · simp only [file]
      split <;> exact hwritten.read? q hq
    · simp only [file, hwritten.confine allowed h]
      by_cases hfailed : (v.write (c.target ++ EntryName.segments name) size content?).failure.isSome = true
      · rw [if_pos hfailed]
        exact if_pos hfailed
      · rw [if_neg hfailed]
        exact if_neg hfailed

end Visit

section Visits

variable {folder : Path} {v : Visit} {c : Container}

open Visit (StaysBelow)

/-- A container in another one is put aside below the folder, and what is done with it then has to stay there too. -/
theorem Visit.staysBelow_aside {name : String} {format : Format} {size : Nat} {content? : Option Content}
    (hformat : Format.ofName? name = some format) (hc : c.target.IsWithin folder) (after : Container → Visit → Visit)
    (hafter : ∀ inner aside, inner.target.IsWithin folder → StaysBelow folder (after inner) aside) :
    StaysBelow folder (fun v =>
      let inner := c.nested v.disk.fresh.1 name format
      let aside := { v with disk := v.disk.fresh.2 }.write inner.path size content?
      if aside.failure.isSome then aside else after inner aside) v := by
  have hbelow := Container.isBelow_nested hc v.disk.fresh.1 hformat
  have haside := Visit.staysBelow_write { v with disk := v.disk.fresh.2 } hbelow size content?
  have hinner := hafter _ ({ v with disk := v.disk.fresh.2 }.write (c.nested v.disk.fresh.1 name format).path size
    content?) (Container.isWithin_nested hc v.disk.fresh.1 name format)
  refine ⟨fun q hq => ?_, fun allowed h => ?_⟩
  · have hread := haside.read? q hq
    dsimp only
    split
    · exact hread
    · exact (hinner.read? q hq).trans hread
  · have hgoes := haside.confine allowed h
    have hgoesOn := hinner.confine allowed h
    dsimp only [Visit.confine, Disk.fresh_confine] at hgoes hgoesOn ⊢
    rw [hgoes]
    dsimp only
    split
    · rfl
    · exact hgoesOn

mutual

theorem Content.staysBelow_visit (mode : IndexMode) (c : Container) (content : Content) (v : Visit)
    (hc : c.target.IsWithin folder) : StaysBelow folder (content.visit mode c) v := by
  match content with
  | .plain _ | .contradictory .. => exact Visit.staysBelow_fail folder _ v
  | .packed format _ blocks =>
    have hblocks := staysBelow_visitBlocks mode c blocks v hc
    have hfailed := Visit.staysBelow_fail folder (.malformed c.shown (.notFormat c.format)) v
    refine ⟨fun q hq => ?_, fun allowed h => ?_⟩ <;> simp only [Content.visit] <;> split
    · exact hblocks.read? q hq
    · exact hfailed.read? q hq
    · exact hblocks.confine allowed h
    · exact hfailed.confine allowed h

theorem staysBelow_visitBlocks (mode : IndexMode) (c : Container) (blocks : List (List Member)) (v : Visit)
    (hc : c.target.IsWithin folder) : StaysBelow folder (visitBlocks mode c blocks) v := by
  match blocks with
  | [] => exact ⟨fun _ _ => rfl, fun _ _ => rfl⟩
  | block :: more =>
    have hblock := staysBelow_visitMembers mode c block { v with failure := none } hc
    let after := visitMembers mode c block { v with failure := none }
    have hclean := staysBelow_visitBlocks mode c more { after with failure := v.failure } hc
    have hfailed := staysBelow_visitBlocks mode c more after hc
    refine ⟨fun q hq => ?_, fun allowed h => ?_⟩
    · rw [visitBlocks]
      split
      · exact (hclean.read? q hq).trans (hblock.read? q hq)
      · split
        · exact hblock.read? q hq
        · exact (hfailed.read? q hq).trans (hblock.read? q hq)
    · have hgoes := hblock.confine allowed h
      dsimp only [Visit.confine] at hgoes
      simp only [visitBlocks, Visit.confine, hgoes]
      split
      · exact hclean.confine allowed h
      · split
        · rfl
        · exact hfailed.confine allowed h

theorem staysBelow_visitMembers (mode : IndexMode) (c : Container) (members : List Member) (v : Visit)
    (hc : c.target.IsWithin folder) : StaysBelow folder (visitMembers mode c members) v := by
  match members with
  | [] => exact ⟨fun _ _ => rfl, fun _ _ => rfl⟩
  | m :: rest =>
    have hm := m.staysBelow_visit mode c v hc
    have hrest := staysBelow_visitMembers mode c rest (m.visit mode c v) hc
    refine ⟨fun q hq => ?_, fun allowed h => ?_⟩
    · rw [visitMembers]
      split
      · exact hm.read? q hq
      · exact (hrest.read? q hq).trans (hm.read? q hq)
    · have hgoes := hm.confine allowed h
      simp only [visitMembers, hgoes]
      by_cases hfailed : (m.visit mode c v).failure.isSome = true
      · rw [if_pos hfailed]
        exact if_pos hfailed
      · rw [if_neg hfailed]
        exact (if_neg hfailed).trans (hrest.confine allowed h)

theorem Member.staysBelow_visit (mode : IndexMode) (c : Container) (m : Member) (v : Visit)
    (hc : c.target.IsWithin folder) : StaysBelow folder (m.visit mode c) v := by
  match m with
  | .unreadable _ | .contradictory _ => exact Visit.staysBelow_fail folder _ v
  | .intact _ true .. | .damaged _ true _ => exact ⟨fun _ _ => rfl, fun _ _ => rfl⟩
  | .damaged raw false size =>
    change StaysBelow folder (fun v => Member.visit mode c (.damaged raw false size) v) v
    unfold Member.visit
    cases hname : EntryName.normalize? raw with
    | none => exact Visit.staysBelow_fail folder _ v
    | some name =>
      cases hformat : Format.ofName? name with
      | none =>
        simp only [hformat]
        exact (Visit.staysBelow_file v hname hc size none).comp (Visit.staysBelow_drain folder c _)
      | some format =>
        simp only [hformat, Visit.enter_nested _ _ _ hformat]
        exact Visit.staysBelow_aside hformat hc
          (fun inner aside => aside.fail (.malformed inner.shown (.notFormat format)))
          fun inner aside _ => Visit.staysBelow_fail folder _ aside
  | .intact raw false size content =>
    change StaysBelow folder (fun v => Member.visit mode c (.intact raw false size content) v) v
    unfold Member.visit
    cases hname : EntryName.normalize? raw with
    | none => exact Visit.staysBelow_fail folder _ v
    | some name =>
      cases hformat : Format.ofName? name with
      | none =>
        simp only [hformat]
        exact Visit.staysBelow_file v hname hc size (some content)
      | some format =>
        simp only [hformat, Visit.enter_nested _ _ _ hformat]
        refine Visit.staysBelow_aside hformat hc (fun inner aside =>
          if size = 0 then aside.fail (.malformed inner.shown (.notFormat format)) else content.visit mode inner aside)
          fun inner aside hinner => ?_
        by_cases hsize : size = 0
        · simp only [if_pos hsize]
          exact Visit.staysBelow_fail folder _ aside
        · simp only [if_neg hsize]
          exact content.staysBelow_visit mode inner aside hinner

end

end Visits

/-- Building an index writes nowhere but below its folder. -/
theorem Index.staysBelow_build (mode : IndexMode) (source : String) (target : Path) (d : Disk) :
    Disk.StaysBelow target (build mode source target) d := by
  have hway (allowed : Path → Bool) (h : Path.Admits allowed target) :
      (d.confine allowed).makeFolders? target = (d.makeFolders? target).map (·.confine allowed) :=
    Disk.makeFolders?_confine d fun q hq => h q (.inr hq)
  cases hformat : Format.ofPath? source with
  | none => exact ⟨fun _ _ => by simp [build, hformat], fun _ _ => by simp [build, hformat]⟩
  | some format =>
    cases hopen : d.open? source with
    | none => exact ⟨fun _ _ => by simp [build, hformat, hopen], fun _ _ => by simp [build, hformat, hopen]⟩
    | some content =>
      cases hmade : d.makeFolders? target with
      | none =>
        refine ⟨fun _ _ => by simp [build, hformat, hopen, hmade], fun allowed h => ?_⟩
        simp [build, hformat, hopen, hmade, hway allowed h]
      | some d₁ =>
        have hvisit := content.staysBelow_visit mode ⟨Path.ofText source, source, format,
          [(Path.fileName? source).getD ""], target, d.clock⟩ ⟨d₁, .new source, none⟩ (.refl target)
        refine ⟨fun q hq => ?_, fun allowed h => ?_⟩
        · have hread := (hvisit.read? q hq).trans (Disk.read?_makeFolders? hmade q)
          simp only [build, hformat, hopen, hmade]
          split <;> exact hread
        · have hgoes := hvisit.confine allowed h
          dsimp only [Visit.confine] at hgoes
          have hclock : (d.confine allowed).clock = d.clock := rfl
          simp only [build, hformat, Disk.open?_confine, hopen, hmade, hway allowed h, Option.map_some, hclock, hgoes]
          split <;> rfl

mutual

/-- What is listed are normalized names. -/
theorem Content.normalized_listings (content : Content) (chain : List String) :
    ∀ l ∈ content.listings chain, ∃ raw, EntryName.normalize? raw = some l.1 := by
  match content with
  | .plain _ | .contradictory .. => exact List.forall_mem_nil _
  | .packed _ _ blocks => exact normalized_listingsOfBlocks blocks chain

theorem normalized_listingsOfBlocks (blocks : List (List Member)) (chain : List String) :
    ∀ l ∈ listingsOfBlocks chain blocks, ∃ raw, EntryName.normalize? raw = some l.1 := by
  match blocks with
  | [] => exact List.forall_mem_nil _
  | block :: rest =>
    exact List.forall_mem_append.2 ⟨normalized_listingsOf block chain, normalized_listingsOfBlocks rest chain⟩

theorem normalized_listingsOf (members : List Member) (chain : List String) :
    ∀ l ∈ listingsOf chain members, ∃ raw, EntryName.normalize? raw = some l.1 := by
  match members with
  | [] => exact List.forall_mem_nil _
  | m :: rest => exact List.forall_mem_append.2 ⟨m.normalized_listings chain, normalized_listingsOf rest chain⟩

theorem Member.normalized_listings (m : Member) (chain : List String) :
    ∀ l ∈ m.listings chain, ∃ raw, EntryName.normalize? raw = some l.1 := by
  match m with
  | .intact _ true .. | .damaged _ true _ | .unreadable _ | .contradictory _ => exact List.forall_mem_nil _
  | .damaged raw false size =>
    unfold Member.listings
    cases hname : EntryName.normalize? raw with
    | none => exact List.forall_mem_nil _
    | some name =>
      cases hformat : Format.ofName? name with
      | none => simpa [hformat] using ⟨raw, hname⟩
      | some format => simp [hformat]
  | .intact raw false size content =>
    unfold Member.listings
    cases hname : EntryName.normalize? raw with
    | none => exact List.forall_mem_nil _
    | some name =>
      cases hformat : Format.ofName? name with
      | none => simpa [hformat] using ⟨raw, hname⟩
      | some format =>
        simp only [hformat]
        exact content.normalized_listings (chain ++ [name])

end

/-- Every entry of an index that was built has a normalized name. -/
theorem Index.normalized_of_build {mode : IndexMode} {source : String} {target : Path} {d d' : Disk} {i : Index}
    (h : build mode source target d = (.ok i, d')) {name : String} {e : Entry} (he : i.get? name = some e) :
    ∃ raw, EntryName.normalize? raw = some e.name := by
  obtain ⟨content, hopen⟩ := open_of_build h
  obtain ⟨format, d₀, -, -, hvisit⟩ := visit_of_build hopen h
  obtain ⟨es, hlistings, -, hindex⟩ := content.lists_visit mode (.top source format target d.clock)
    ⟨d₀, .new source, none⟩ (by rw [hvisit])
  rw [hvisit] at hindex
  obtain rfl : i = es.foldl Index.register (.new source) := hindex
  rw [(registers_foldl (registers_new source) es).get?] at he
  have hmem : e.listing ∈ es.map Entry.listing := List.mem_map_of_mem (mem_of_findRev?_eq_some he)
  rw [hlistings] at hmem
  exact content.normalized_listings _ _ hmem

end ModWeave
