import ModWeave.Proofs.Cache.Confinement
import ModWeave.Proofs.Index.Confinement

/-!
Unsafe names. A file whose name leads out of its container, or nowhere, makes the whole archive fail, however deep it
lies. The failure names it, unless a member of a later block fails as well in a 7z container: there each block is begun,
and the last failure counts.
-/
namespace ModWeave

/-- A file, which is no folder, under a name that leads nowhere or out of the container. -/
inductive Member.IsUnsafe (raw : String) : Member → Prop
  | intact {size : Nat} {content : Content} (hname : EntryName.normalize? raw = none) :
      IsUnsafe raw (.intact raw false size content)
  | damaged {size : Nat} (hname : EntryName.normalize? raw = none) : IsUnsafe raw (.damaged raw false size)

/-- A member that is unsafe, or is named as a container and holds an unsafe one. -/
inductive Member.HoldsUnsafe : Member → Prop
  | own {raw : String} {m : Member} (h : m.IsUnsafe raw) : HoldsUnsafe m
  | inside {raw name : String} {size : Nat} {format actual : Format} {bytes : ByteArray} {blocks : List (List Member)}
      {m : Member} (hname : EntryName.normalize? raw = some name) (hformat : Format.ofName? name = some format)
      (hm : m ∈ blocks.flatten) (h : m.HoldsUnsafe) : HoldsUnsafe (.intact raw false size (.packed actual bytes blocks))

/-- A container with an unsafe member, at any depth. -/
def Content.HoldsUnsafe (content : Content) : Prop :=
  ∃ format bytes blocks, content = .packed format bytes blocks ∧ ∃ m ∈ blocks.flatten, m.HoldsUnsafe

variable {mode : IndexMode} {c : Container} {m : Member} {members before after block : List Member}
  {front back blocks : List (List Member)} {v u : Visit} {raw : String} {e : ArchiveError}

theorem Member.IsUnsafe.visit (h : m.IsUnsafe raw) (mode : IndexMode) (c : Container) (v : Visit) :
    m.visit mode c v = v.fail (.malformed c.shown (.unsafeName raw)) := by
  cases h with
  | intact hname => simp [Member.visit, hname]
  | damaged hname => simp [Member.visit, hname]

/-- What holds an unsafe member is not among members that are visited without failure. -/
theorem PassAll.not_holdsUnsafe {w : Visit} (h : PassAll mode c members v w) : ∀ m ∈ members, ¬ m.HoldsUnsafe := by
  induction h with
  | nil => exact List.forall_mem_nil _
  | folder hfolder _ ih =>
    refine List.forall_mem_cons.2 ⟨fun hunsafe => ?_, ih⟩
    cases hunsafe with
    | own h => cases h <;> cases hfolder
    | inside => cases hfolder
  | @file _ raw name size content? _ _ _ hname hformat _ _ ih =>
    refine List.forall_mem_cons.2 ⟨fun hunsafe => ?_, ih⟩
    cases content? with
    | none => cases hunsafe with
      | own h => cases h; simp_all
    | some content => cases hunsafe with
      | own h => cases h; simp_all
      | inside => simp_all
  | container hname _ _ _ _ inside ih =>
    refine List.forall_mem_cons.2 ⟨fun hunsafe => ?_, ih⟩
    cases hunsafe with
    | own h => cases h; simp_all
    | inside _ _ hm h => exact inside _ hm h

theorem Content.HoldsUnsafe.failure {content : Content} (h : content.HoldsUnsafe) (mode : IndexMode) (c : Container)
    (v : Visit) : (content.visit mode c v).failure ≠ none := by
  obtain ⟨format, bytes, blocks, rfl, m, hm, hraw⟩ := h
  intro hnone
  obtain ⟨_, _, hpacked, hpass⟩ := Content.passAll_visit hnone
  cases hpacked
  exact hpass.not_holdsUnsafe m hm hraw

/-- An archive that holds an unsafe member is neither indexed nor extracted. -/
theorem Index.build_of_holdsUnsafe {source : String} {content : Content} {d : Disk}
    (hopen : d.open? source = some content) (h : content.HoldsUnsafe) (mode : IndexMode) (target : Path) :
    ∃ e, (build mode source target d).1 = .error e := by
  cases hbuild : (build mode source target d).1 with
  | error e => exact ⟨e, rfl⟩
  | ok i =>
    obtain ⟨format, d₁, -, -, hvisit⟩ := visit_of_build hopen (Prod.ext hbuild rfl)
    exact absurd (by rw [hvisit]) (h.failure mode (.top source format target d.clock) ⟨d₁, .new source, none⟩)

/-! ### The failure of a block -/

theorem visitMembers_of_failed (hbefore : (visitMembers mode c before u).failure = none)
    (hm : (m.visit mode c (visitMembers mode c before u)).failure = some e) (after : List Member) :
    visitMembers mode c (before ++ m :: after) u = m.visit mode c (visitMembers mode c before u) := by
  simp [visitMembers_append hbefore, visitMembers, hm]

/-- A block that fails does so at a member that is visited behind others which do not. -/
theorem exists_failed_member (hu : u.failure = none) (h : (visitMembers mode c block u).failure = some e) :
    ∃ before m after, block = before ++ m :: after ∧ (visitMembers mode c before u).failure = none ∧
      (m.visit mode c (visitMembers mode c before u)).failure = some e := by
  induction block generalizing u with
  | nil => simp [visitMembers, hu] at h
  | cons m rest ih =>
    cases hm : (m.visit mode c u).failure with
    | none =>
      rw [visitMembers_cons hm] at h
      obtain ⟨before, m', after, rfl, hbefore, hm'⟩ := ih hm h
      refine ⟨m :: before, m', after, rfl, ?_, ?_⟩
      · rwa [visitMembers_cons hm]
      · rwa [visitMembers_cons hm]
    | some e' =>
      obtain rfl : e' = e := by simpa [visitMembers, hm] using h
      exact ⟨[], m, rest, rfl, hu, hm⟩

/-! ### The failure of a container -/

/-- Whether a container is left with the failure there is. -/
def Visit.Stops (v : Visit) (c : Container) : Prop := ∃ e, v.failure = some e ∧ c.isLeftAt e = true

theorem Visit.not_stops (h : v.failure = none) (c : Container) : ¬ v.Stops c := by
  rintro ⟨e, he, -⟩
  cases h.symm.trans he

/-- A visit that is not left goes on with the blocks behind. -/
theorem visitBlocks_append (h : ¬ (visitBlocks mode c front v).Stops c) (back : List (List Member)) :
    visitBlocks mode c (front ++ back) v = visitBlocks mode c back (visitBlocks mode c front v) := by
  induction front generalizing v with
  | nil => rfl
  | cons block front ih =>
    cases hblock : (visitMembers mode c block { v with failure := none }).failure with
    | none =>
      rw [visitBlocks_of_passed hblock] at h ⊢
      rw [List.cons_append, visitBlocks_of_passed hblock, ih h]
    | some e =>
      by_cases hleft : c.isLeftAt e = true
      · rw [visitBlocks_of_left hblock hleft] at h
        exact absurd ⟨e, hblock, hleft⟩ h
      · rw [visitBlocks_of_failed hblock hleft] at h ⊢
        rw [List.cons_append, visitBlocks_of_failed hblock hleft, ih h]

/-- The visit that a member is visited with, behind blocks and behind others of its own block. -/
def Visit.reach (v : Visit) (mode : IndexMode) (c : Container) (front : List (List Member)) (before : List Member) :
    Visit :=
  visitMembers mode c before { visitBlocks mode c front v with failure := none }

/-- A member of the block with some number is visited, and fails. -/
def FailsAt (mode : IndexMode) (c : Container) (blocks : List (List Member)) (v : Visit) (k : Nat) (e : ArchiveError) :
    Prop :=
  ∃ front before m after back, blocks = front ++ (before ++ m :: after) :: back ∧ front.length = k ∧
    ¬ (visitBlocks mode c front v).Stops c ∧ (v.reach mode c front before).failure = none ∧
      (m.visit mode c (v.reach mode c front before)).failure = some e

theorem FailsAt.behind {k : Nat} (h : FailsAt mode c back (visitBlocks mode c front v) k e)
    (hgoes : ¬ (visitBlocks mode c front v).Stops c) : FailsAt mode c (front ++ back) v (front.length + k) e := by
  obtain ⟨between, before, m, after, back, rfl, rfl, hgoesOn, hreached, hm⟩ := h
  have hblocks : visitBlocks mode c (front ++ between) v = visitBlocks mode c between (visitBlocks mode c front v) :=
    visitBlocks_append hgoes between
  refine ⟨front ++ between, before, m, after, back, by simp, by simp, by rwa [hblocks], ?_, ?_⟩
  · rwa [Visit.reach, hblocks]
  · rwa [Visit.reach, hblocks]

/-- A container that is not left with a failure ends with it, or with that of a later block. -/
theorem failure_of_failed (hfailure : v.failure = some e) (h : ¬ v.Stops c) (mode : IndexMode)
    (blocks : List (List Member)) :
    ∃ e', (visitBlocks mode c blocks v).failure = some e' ∧ (e' = e ∨ ∃ k, FailsAt mode c blocks v k e') := by
  induction blocks generalizing v e with
  | nil => exact ⟨e, hfailure, .inl rfl⟩
  | cons block more ih =>
    cases hblock : (visitMembers mode c block { v with failure := none }).failure with
    | none =>
      have hone : visitBlocks mode c [block] v = { visitMembers mode c block { v with failure := none } with
          failure := v.failure } := visitBlocks_of_passed hblock
      have hgoes : ¬ (visitBlocks mode c [block] v).Stops c := by
        rw [hone]
        exact h
      have hthere : (visitBlocks mode c [block] v).failure = some e := by rw [hone, hfailure]
      obtain ⟨e', hends, hlast⟩ := ih hthere hgoes
      rw [← List.singleton_append, visitBlocks_append hgoes]
      exact ⟨e', hends, hlast.imp_right fun ⟨k, hk⟩ => ⟨_, hk.behind hgoes⟩⟩
    | some e₁ =>
      obtain ⟨before, m, after, hsplit, hreached, hm⟩ := exists_failed_member rfl hblock
      have hhere : FailsAt mode c (block :: more) v 0 e₁ := ⟨[], before, m, after, more, by simp [hsplit], rfl, h,
        hreached, hm⟩
      by_cases hleft : c.isLeftAt e₁ = true
      · exact ⟨e₁, by rw [visitBlocks_of_left hblock hleft, hblock], .inr ⟨0, hhere⟩⟩
      · have hone : visitBlocks mode c [block] v = visitMembers mode c block { v with failure := none } :=
          visitBlocks_of_failed hblock hleft
        have hthere : (visitBlocks mode c [block] v).failure = some e₁ := by rw [hone, hblock]
        have hgoes : ¬ (visitBlocks mode c [block] v).Stops c := by
          rintro ⟨e₂, he₂, hleft₂⟩
          obtain rfl := Option.some.inj (hthere.symm.trans he₂)
          exact hleft hleft₂
        obtain ⟨e', hends, hlast⟩ := ih hthere hgoes
        rw [← List.singleton_append, visitBlocks_append hgoes]
        refine ⟨e', hends, .inr ?_⟩
        obtain rfl | ⟨k, hk⟩ := hlast
        · exact ⟨0, hhere⟩
        · exact ⟨_, hk.behind hgoes⟩

theorem Container.isLeftAt_of_zip (h : c.format = .zip) (e : ArchiveError) : c.isLeftAt e = true := by
  unfold Container.isLeftAt
  split <;> simp [h]

/-- Where a member fails that is visited, its container does. The failure is the member's, or that of a later block of a
7z container. -/
theorem failure_of_member (hgoes : ¬ (visitBlocks mode c front v).Stops c)
    (hreached : (v.reach mode c front before).failure = none)
    (hm : (m.visit mode c (v.reach mode c front before)).failure = some e) :
    ∃ e', (visitBlocks mode c (front ++ (before ++ m :: after) :: back) v).failure = some e' ∧
      (e' = e ∨ c.format = .sevenZ ∧
        ∃ k, front.length < k ∧ FailsAt mode c (front ++ (before ++ m :: after) :: back) v k e') := by
  have hblock : (visitMembers mode c (before ++ m :: after) { visitBlocks mode c front v with failure := none }).failure =
      some e := by
    rw [visitMembers_of_failed hreached hm]
    exact hm
  by_cases hleft : c.isLeftAt e = true
  · exact ⟨e, by rw [visitBlocks_append hgoes, visitBlocks_of_left hblock hleft, hblock], .inl rfl⟩
  · have hformat : c.format = .sevenZ := by
      cases hzip : c.format with
      | zip => exact absurd (Container.isLeftAt_of_zip hzip e) hleft
      | sevenZ => rfl
    have hthere : (visitBlocks mode c (front ++ [before ++ m :: after]) v).failure = some e := by
      rw [visitBlocks_append hgoes, visitBlocks_of_failed hblock hleft]
      exact hblock
    have hgoesOn : ¬ (visitBlocks mode c (front ++ [before ++ m :: after]) v).Stops c := by
      rintro ⟨e₂, he₂, hleft₂⟩
      obtain rfl := Option.some.inj (hthere.symm.trans he₂)
      exact hleft hleft₂
    obtain ⟨e', hends, hlast⟩ := failure_of_failed hthere hgoesOn mode back
    have hsplit : front ++ (before ++ m :: after) :: back = (front ++ [before ++ m :: after]) ++ back := by simp
    rw [hsplit, visitBlocks_append hgoesOn]
    refine ⟨e', hends, hlast.imp_right fun ⟨k, hk⟩ => ⟨hformat, _, ?_, hk.behind hgoesOn⟩⟩
    simp only [List.length_append, List.length_singleton]
    omega

/-- The visit of a container comes to a member of it, or of a container in it: at a position, which is given at each
level by the number of a block and the number of a member in it, in a container and with the visit so far. -/
inductive Content.Meets (mode : IndexMode) :
    Container → Content → Visit → List (Nat × Nat) → Container → Member → Visit → Prop
  | here {c : Container} {bytes : ByteArray} {front back : List (List Member)} {before after : List Member} {m : Member}
      {v : Visit} (hgoes : ¬ (visitBlocks mode c front v).Stops c)
      (hreached : (v.reach mode c front before).failure = none) :
      Meets mode c (.packed c.format bytes (front ++ (before ++ m :: after) :: back)) v
        [(front.length, before.length)] c m (v.reach mode c front before)
  | inside {c inner : Container} {bytes : ByteArray} {front back : List (List Member)} {before after : List Member}
      {raw name : String} {size : Nat} {format : Format} {content : Content} {v aside u : Visit}
      {position : List (Nat × Nat)} {m : Member} (hgoes : ¬ (visitBlocks mode c front v).Stops c)
      (hreached : (v.reach mode c front before).failure = none) (hname : EntryName.normalize? raw = some name)
      (hformat : Format.ofName? name = some format) (hsize : size ≠ 0)
      (haside : aside = { v.reach mode c front before with disk := (v.reach mode c front before).disk.fresh.2 }.write
        (c.nested (v.reach mode c front before).disk.serial name format).path size (some content))
      (hfailure : aside.failure = none)
      (h : Meets mode (c.nested (v.reach mode c front before).disk.serial name format) content aside position inner m u) :
      Meets mode c (.packed c.format bytes (front ++ (before ++ .intact raw false size content :: after) :: back)) v
        ((front.length, before.length) :: position) inner m u

theorem FailsAt.meets {k : Nat} (h : FailsAt mode c blocks v k e) (bytes : ByteArray) :
    ∃ i m u, (Content.packed c.format bytes blocks).Meets mode c v [(k, i)] c m u ∧
      (m.visit mode c u).failure = some e := by
  obtain ⟨front, before, m, after, back, rfl, rfl, hgoes, hreached, hm⟩ := h
  exact ⟨_, m, _, .here hgoes hreached, hm⟩

/-- A failure that is told instead of one at a position: that of a member of a later block, in a 7z container that the
way to the position goes through. -/
def Content.Overtakes (mode : IndexMode) (c : Container) (content : Content) (v : Visit) (position : List (Nat × Nat))
    (e : ArchiveError) : Prop :=
  ∃ front k j back inner m u, position = front ++ k :: back ∧ k.1 < j.1 ∧
    content.Meets mode c v (front ++ [j]) inner m u ∧ inner.format = .sevenZ ∧ (m.visit mode inner u).failure = some e

/-- Where a member fails that is met, the visit does, with the failure of that member or of one that overtakes it. -/
theorem Content.Meets.failure {content : Content} {position : List (Nat × Nat)} {inner : Container}
    (h : content.Meets mode c v position inner m u) (hm : (m.visit mode inner u).failure = some e) :
    ∃ e', (content.visit mode c v).failure = some e' ∧ (e' = e ∨ content.Overtakes mode c v position e') := by
  induction h with
  | @here c bytes front back before after m v hgoes hreached =>
    rw [Content.visit_packed rfl]
    obtain ⟨e', hends, hlast⟩ := failure_of_member hgoes hreached hm
    refine ⟨e', hends, hlast.imp_right ?_⟩
    rintro ⟨hformat, k, hlt, hk⟩
    obtain ⟨i, m', u, hmeets, hm'⟩ := hk.meets bytes
    exact ⟨[], _, (k, i), [], c, m', u, rfl, hlt, hmeets, hformat, hm'⟩
  | @inside c inner bytes front back before after raw name size format content v aside u position m hgoes hreached hname
      hformat hsize haside hfailure hmeets ih =>
    obtain ⟨e₁, hvisit, hown⟩ := ih hm
    subst haside
    rw [Content.visit_packed rfl]
    rw [← Member.visit_container hname hformat hsize hfailure] at hvisit
    obtain ⟨e', hends, hlast⟩ := failure_of_member hgoes hreached hvisit
    refine ⟨e', hends, ?_⟩
    obtain rfl | ⟨hseven, k, hlt, hk⟩ := hlast
    · refine hown.imp_right ?_
      rintro ⟨front', k, j, back', c', m', w, rfl, hlt, hovertakes, hseven, hm'⟩
      exact ⟨(front.length, before.length) :: front', k, j, back', c', m', w, rfl, hlt,
        .inside hgoes hreached hname hformat hsize rfl hfailure hovertakes, hseven, hm'⟩
    · obtain ⟨i, m', w, hmeets', hm'⟩ := hk.meets bytes
      exact .inr ⟨[], _, (k, i), position, c, m', w, rfl, hlt, hmeets', hseven, hm'⟩

/-- Whether each 7z container ends at the first member that is refused, at any depth: it has one block. -/
def Content.EndsAtRefusal (content : Content) : Prop :=
  ∀ x ∈ content.containers, x.1 = .sevenZ → x.2.length ≤ 1

/-- The last block on the way to a member is one of a container in the archive. -/
theorem Content.Meets.exists_container {content : Content} {position : List (Nat × Nat)} {inner : Container}
    (h : content.Meets mode c v position inner m u) :
    ∃ front j, position = front ++ [j] ∧ ∃ x ∈ content.containers, x.1 = inner.format ∧ j.1 < x.2.length := by
  induction h with
  | here => exact ⟨[], _, rfl, _, by rw [containers]; exact List.mem_cons_self, rfl, by simp⟩
  | @inside c inner bytes front back before after raw name size format content v aside u position m _ _ hname hformat _
      _ _ _ ih =>
    obtain ⟨front', j, rfl, x, hx, hinner, hlt⟩ := ih
    refine ⟨(front.length, before.length) :: front', j, rfl, x, ?_, hinner, hlt⟩
    rw [containers, containersOfBlocks_eq]
    refine List.mem_cons_of_mem _ (List.mem_flatMap.2 ⟨.intact raw false size content, by simp, ?_⟩)
    simpa [Member.containers, hname, hformat] using hx

/-- Nothing is overtaken where 7z containers end at the first refusal. -/
theorem Content.EndsAtRefusal.not_overtakes {content : Content} (h : content.EndsAtRefusal)
    (position : List (Nat × Nat)) (e : ArchiveError) : ¬ content.Overtakes mode c v position e := by
  rintro ⟨front, k, j, back, inner, m, u, -, hlt, hmeets, hseven, -⟩
  obtain ⟨front', j', hposition, x, hx, hformat, hj⟩ := hmeets.exists_container
  obtain rfl := List.singleton_inj.1 (List.append_inj' hposition rfl).2
  have hone := h x hx (hformat.trans hseven)
  omega

namespace Index

/-- The visit that an index is built with: the archive as a container, what it holds, and the disk with the folder. -/
structure Starts (source : String) (target : Path) (d : Disk) (c : Container) (content : Content) (v : Visit) :
    Prop where
  opens : d.open? source = some content
  container : ∃ format, Format.ofPath? source = some format ∧ c = .top source format target d.clock
  visit : ∃ d₁, d.makeFolders? target = some d₁ ∧ v = ⟨d₁, .new source, none⟩

theorem Starts.build {source : String} {target : Path} {d : Disk} {content : Content}
    (h : Starts source target d c content v) (hfailure : (content.visit mode c v).failure = some e) :
    (build mode source target d).1 = .error e := by
  obtain ⟨hopen, ⟨format, hformat, rfl⟩, d₁, hmade, rfl⟩ := h
  simp only [Container.top, rootName] at hfailure
  simp [Index.build, hformat, hopen, hmade, hfailure]

/-- **What an archive holds cannot get out of the folder it is given.** Building an index writes below its folder only,
and the cache of copies below its own, whatever the names in the archive are. A file with an unsafe name, at any depth,
makes the archive unusable; once it is visited that is what is told, unless it is overtaken. Every other name becomes
one whose segments lead down, and then stays as it is. -/
theorem build_stays_below (mode : IndexMode) (source : String) (target : Path) (d : Disk) :
    Disk.StaysBelow target (build mode source target) d ∧
    (∀ i, (build mode source target d).1 = .ok i →
      ∀ (c : ContentCache) (d' : Disk) (name : String) (e : Entry), i.get? name = some e →
        Disk.StaysBelow c.folder (fun d => (((c.bytes d e).1, (c.bytes d e).2.1), (c.bytes d e).2.2)) d' ∧
        Disk.StaysBelow c.folder (fun d => (((c.text d e).1, (c.text d e).2.1), (c.text d e).2.2)) d') ∧
    (∀ content, d.open? source = some content → content.HoldsUnsafe →
      ∃ e, (build mode source target d).1 = .error e) ∧
    (∀ c content v, Starts source target d c content v →
      ∀ position inner m u raw, content.Meets mode c v position inner m u → m.IsUnsafe raw →
        ∃ e, (build mode source target d).1 = .error e ∧
          (e = .malformed inner.shown (.unsafeName raw) ∨ content.Overtakes mode c v position e) ∧
          (content.EndsAtRefusal → e = .malformed inner.shown (.unsafeName raw))) ∧
    ∀ raw, (EntryName.normalize? raw = none ↔
        ['.', '.'] ∈ Text.segments EntryName.isSlash raw.toList ∨
          ∀ cs ∈ Text.segments EntryName.isSlash raw.toList, cs = [] ∨ cs = ['.']) ∧
      ∀ name, EntryName.normalize? raw = some name → ∃ names : List String, names ≠ [] ∧
        (∀ s ∈ names, Path.LeadsDown s ∧ '\\' ∉ s.toList) ∧ name = "/".intercalate names ∧
          EntryName.normalize? name = some name := by
  refine ⟨staysBelow_build mode source target d, fun i hi c d' name e he => ?_, fun content hopen h => ?_,
    fun c content v hstarts position inner m u raw hmeets hraw => ?_, fun raw => ?_⟩
  · obtain ⟨raw, hname⟩ := normalized_of_build (Prod.ext hi rfl) he
    exact ⟨c.staysBelow_bytes d' hname, c.staysBelow_text d' hname⟩
  · exact build_of_holdsUnsafe hopen h mode target
  · have hfailure : (m.visit mode inner u).failure = some (.malformed inner.shown (.unsafeName raw)) := by
      rw [hraw.visit]
      rfl
    obtain ⟨e, hvisit, htold⟩ := hmeets.failure hfailure
    exact ⟨e, hstarts.build hvisit, htold, fun hends => htold.resolve_right (hends.not_overtakes position e)⟩
  · exact ⟨EntryName.normalize?_eq_none_iff, fun _ => EntryName.exists_segments_of_normalize?⟩

/-- A file with an unsafe name in a container, behind another file. The copy of the container is what is told. -/
theorem build_names_an_unsafe_entry :
    let inner := Content.packed .sevenZ .empty [[.ofText "..\\x" "1"]]
    let archive := Content.packed .zip .empty [[.ofText "a" "2", .intact "in.7z" false 1 inner]]
    ∃ c v u, Starts "m.zip" ["dest"] (.single "m.zip" archive) c archive v ∧
      archive.Meets .index c v [(0, 1), (0, 0)] (c.nested 0 "in.7z" .sevenZ) (.ofText "..\\x" "1") u ∧
      (build .index "m.zip" ["dest"] (.single "m.zip" archive)).1 =
        .error (.malformed (c.nested 0 "in.7z" .sevenZ).shown (.unsafeName "..\\x")) := by
  intro inner archive
  obtain ⟨c, v, hstarts, hformat, hfailure, hreached, hserial, haside⟩ : ∃ c v,
      Starts "m.zip" ["dest"] (.single "m.zip" archive) c archive v ∧ .zip = c.format ∧ v.failure = none ∧
      (v.reach .index c [] [.ofText "a" "2"]).failure = none ∧
      (v.reach .index c [] [.ofText "a" "2"]).disk.serial = 0 ∧
      ({ v.reach .index c [] [.ofText "a" "2"] with disk := (v.reach .index c [] [.ofText "a" "2"]).disk.fresh.2 }.write
        (c.nested 0 "in.7z" .sevenZ).path 1 (some inner)).failure = none :=
    ⟨_, _, ⟨rfl, ⟨.zip, rfl, rfl⟩, _, rfl, rfl⟩, rfl, rfl, by decide, by decide, by decide⟩
  rw [← hserial] at haside
  obtain ⟨u, hmeets⟩ : ∃ u,
      archive.Meets .index c v [(0, 1), (0, 0)] (c.nested 0 "in.7z" .sevenZ) (.ofText "..\\x" "1") u := by
    have hin := @Content.Meets.here .index (c.nested (v.reach .index c [] [.ofText "a" "2"]).disk.serial "in.7z" .sevenZ)
      .empty [] [] [] [] (.ofText "..\\x" "1") _ (Visit.not_stops haside _) rfl
    have h := @Content.Meets.inside .index c _ .empty [] [] [.ofText "a" "2"] [] "in.7z" "in.7z" 1 .sevenZ inner v _ _ _ _
      (Visit.not_stops hfailure _) hreached (by decide) (by decide) (by decide) rfl haside hin
    rw [← hformat, hserial] at h
    exact ⟨_, h⟩
  obtain ⟨-, -, -, htold, -⟩ := build_stays_below .index "m.zip" ["dest"] (.single "m.zip" archive)
  obtain ⟨e, hbuild, -, hends⟩ := htold _ _ _ hstarts _ _ _ _ "..\\x" hmeets (.intact (by decide))
  have hone : ∀ x ∈ archive.containers, x.1 = .sevenZ → x.2.length ≤ 1 := by decide
  exact ⟨c, v, u, hstarts, hmeets, hbuild.trans (congrArg Except.error (hends hone))⟩

/-- The unsafe name is met first, but what is told is that a file behind it could not be written. -/
theorem build_forgets_an_unsafe_name :
    let archive := Content.pack .sevenZ [("../x", .ofText "1"), ("a", .ofText "2"), ("a/b", .ofText "3")]
    (∃ c v inner m u, Starts "m.7z" ["dest"] (.single "m.7z" archive) c archive v ∧
      archive.Meets .extract c v [(0, 0)] inner m u ∧ m.IsUnsafe "../x") ∧
    ∃ d, build .extract "m.7z" ["dest"] (.single "m.7z" archive) = (.error .io, d) := by
  intro archive
  obtain ⟨c, v, hstarts, hformat, hfailure, hends⟩ : ∃ c v, Starts "m.7z" ["dest"] (.single "m.7z" archive) c archive v ∧
      .sevenZ = c.format ∧ v.failure = none ∧ (archive.visit .extract c v).failure = some .io :=
    ⟨_, _, ⟨rfl, ⟨.sevenZ, rfl, rfl⟩, _, rfl, rfl⟩, rfl, rfl, by decide⟩
  obtain ⟨bytes, more, harchive⟩ : ∃ bytes more, archive = .packed c.format bytes ([.ofText "../x" "1"] :: more) := by
    rw [← hformat]
    exact ⟨_, _, rfl⟩
  have hmeets : archive.Meets .extract c v [(0, 0)] c (.ofText "../x" "1") (v.reach .extract c [] []) := by
    rw [harchive]
    exact @Content.Meets.here _ _ _ [] more [] [] _ v (Visit.not_stops hfailure c) rfl
  refine ⟨⟨c, v, c, _, _, hstarts, hmeets, .intact (by decide)⟩, ?_⟩
  have htold : (build .extract "m.7z" ["dest"] (.single "m.7z" archive)).1 = .error .io := hstarts.build hends
  generalize build .extract "m.7z" ["dest"] (.single "m.7z" archive) = b at htold ⊢
  exact ⟨b.2, Prod.ext htold rfl⟩

end Index

end ModWeave
