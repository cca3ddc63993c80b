import ModWeave.Proofs.Index.Visit

/-!
Reading what a visit has registered. Of the files of one name the last can be read, whether it has
been written out or still is in its container.
-/
namespace ModWeave

/-- Whether each file can be read that comes last under its name. -/
def LastRead (d : Disk) : List Act → Prop
  | [] => True
  | a :: rest =>
    (∀ f location, a.registers = some (f, location) → (∀ b ∈ rest, b.name? ≠ some f.name) →
      location.read d = .ok f.bytes) ∧ LastRead d rest

namespace LastRead

variable {d : Disk} {acts acts' : List Act}

theorem append (h : LastRead d acts) (h' : LastRead d acts') : LastRead d (acts ++ acts') := by
  induction acts with
  | nil => exact h'
  | cons a rest ih =>
    refine ⟨fun f location ha hlast => h.1 f location ha fun b hb => ?_, ih h.2⟩
    exact hlast b (List.mem_append_left _ hb)

theorem of_append (h : LastRead d (acts ++ acts')) : LastRead d acts' := by
  induction acts with
  | nil => exact h
  | cons a rest ih => exact ih h.2

theorem read (h : LastRead d acts) {name : String} {f : Occurrence} {location : Location}
    (hlast : (acts.filterMap Act.registers).findRev? (·.1.name = name) = some (f, location)) :
    location.read d = .ok f.bytes := by
  obtain ⟨hname, before, a, after, rfl, ha, hafter⟩ := findRev?_filterMap_eq_some_iff.1 hlast
  refine h.of_append.1 f location ha fun b hb hb' => ?_
  obtain ⟨⟨g, l⟩, hg, hgname⟩ := Option.map_eq_some_iff.1 hb'
  have hother := hafter b hb (g, l) hg
  simp_all

end LastRead

section Written

variable {d d' : Disk} {acts : List Act}

/-- What is written is there in the end, unless a file of the same name is written later. -/
theorem Disk.Gets.read? (h : d.Gets (acts.filterMap Act.writes) d') {before after : List Act} {a : Act}
    (hacts : acts = before ++ a :: after) (hoff : ∀ b ∈ after, a.KeepsOff b)
    (hlast : ∀ b ∈ after, ∀ name, a.name? = some name → b.name? ≠ some name) {path : Path}
    {content : Content} (hwrites : a.writes = some (path, content)) : d'.read? path = some content := by
  have hfound : (acts.filterMap Act.writes).findRev? (·.1 = path) = some (path, content) := by
    refine findRev?_filterMap_eq_some_iff.2
      ⟨decide_eq_true rfl, before, a, after, hacts, hwrites, fun b hb z hz => decide_eq_false ?_⟩
    rintro rfl
    obtain ⟨name, hname, hname'⟩ := hoff b hb z.1 (by simp [Act.path?, hwrites])
      (by simp [Act.path?, hz])
    exact hlast b hb name hname hname'
  rw [Disk.read?_eq_some_iff, h.item?, hfound]

/-- Files that are written out can be read where they were written to. -/
theorem lastRead_of_delivers (h : d.Gets (acts.filterMap Act.writes) d')
    (hoff : acts.Pairwise Act.KeepsOff) (hdelivers : ∀ a ∈ acts, a.Delivers) : LastRead d' acts := by
  suffices hrest : ∀ before rest, acts = before ++ rest → LastRead d' rest from hrest [] acts rfl
  intro before rest
  induction rest generalizing before with
  | nil => exact fun _ => trivial
  | cons a rest ih =>
    intro hacts
    refine ⟨fun f location ha hlast => ?_, ih (before ++ [a]) (by simpa using hacts)⟩
    obtain ⟨path, content, rfl, hwrites, hbytes⟩ := hdelivers a (by simp [hacts]) f location ha
    rw [hacts, List.pairwise_append, List.pairwise_cons] at hoff
    have hread : d'.read? path = some content := by
      refine h.read? hacts hoff.2.1.1 (fun b hb name hname => ?_) hwrites
      obtain rfl : f.name = name := by simpa [Act.name?, ha] using hname
      exact hlast b hb
    simp [Location.read, hread, hbytes]

/-- A container that is put aside stays there. -/
theorem read?_of_putAside (h : d.Gets (acts.filterMap Act.writes) d')
    (hoff : acts.Pairwise Act.KeepsOff) {a : Act} (ha : a ∈ acts) (hnone : a.registers = none)
    {path : Path} {content : Content} (hwrites : a.writes = some (path, content)) :
    d'.read? path = some content := by
  obtain ⟨before, after, rfl⟩ := List.append_of_mem ha
  rw [List.pairwise_append, List.pairwise_cons] at hoff
  exact h.read? rfl hoff.2.1.1 (fun b _ name hname => by simp [Act.name?, hnone] at hname) hwrites

end Written

section Packed

/-- Where names are unambiguous the member that is found under the name of a file is the last one of that name. -/
theorem findMember?_of_isUnambiguous {format : Format} {blocks : List (List Member)} {m : Member}
    (hclear : isUnambiguous format blocks = true) (hreadable : ∀ x ∈ blocks.flatten, x.isUnreadable = false)
    (hm : m ∈ blocks.flatten) (hfile : m.isFolder = false) :
    findMember? format blocks m.name = blocks.flatten.findRev? (·.name = m.name) := by
  cases format with
  | zip => rfl
  | sevenZ =>
    obtain ⟨hfolder, honce⟩ := isUnambiguous_iff.1 hclear
    have hmeets : ∀ block ∈ blocks, (block.find? fun x => x.isUnreadable || x.name = m.name) =
        block.find? (·.name = m.name) := by
      intro block hblock
      refine List.find?_congr fun x hx => ?_
      rw [hreadable x (List.mem_flatten_of_mem hblock hx), Bool.false_or]
    have hlast : ∀ block ∈ blocks, block.find? (·.name = m.name) = block.findRev? (·.name = m.name) := by
      intro block hblock
      refine find?_eq_findRev? ?_
      -- Two members of the name would be two files, as no folder has it.
      have hfiles : ∀ x ∈ block, x.name = m.name → x.isFolder = false := fun x hx hname =>
        Bool.eq_false_iff.2 fun hxfolder => hfolder x (List.mem_flatten_of_mem hblock hx) m hm hxfolder hfile hname
      refine (List.pairwise_filter.1 (List.pairwise_map.1 (honce rfl block hblock))).imp_of_mem ?_
      intro x y hx hy hne hboth
      simp only [decide_eq_true_eq] at hboth
      exact hne (by simp [hfiles x hx hboth.1]) (by simp [hfiles y hy hboth.2]) (hboth.1.trans hboth.2.symm)
    have hnone : (blocks.filterMap fun block => block.find? (·.name = m.name)).find? (·.isUnreadable) = none := by
      rw [List.find?_eq_none]
      intro x hx
      obtain ⟨block, hblock, hfound⟩ := List.mem_filterMap.1 hx
      simp [hreadable x (List.mem_flatten_of_mem hblock (List.mem_of_find?_eq_some hfound))]
    rw [findMember?, List.filterMap_congr hmeets, hnone, findRev?_flatten hlast]
    rfl

theorem Disk.readMember_of_found {d : Disk} {path : Path} {format : Format} {bytes : ByteArray}
    {blocks : List (List Member)} {raw : String} {size : Nat} {content : Content}
    (hpath : Format.ofPath? path.text = some format)
    (hread : d.read? path = some (.packed format bytes blocks))
    (hfound : findMember? format blocks raw = some (.intact raw false size content)) :
    d.readMember path raw = .ok content.bytes := by
  rw [read?_eq_some_iff] at hread
  simp [Disk.readMember, hpath, hread, hfound, Member.read]

/-- Whether each container is still there that has been put aside. -/
def KeepsAside (d : Disk) (acts : List Act) : Prop :=
  ∀ a ∈ acts, a.registers = none →
    ∀ path content, a.writes = some (path, content) → d.read? path = some content

/-- A file of a container is among what a visit does for it. -/
theorem exists_mem_planOf {mode : IndexMode} {c : Container} {members : List Member} {m : Member}
    {name : String} (husable : ∀ m ∈ members, m.IsUsable) (hm : m ∈ members)
    (hfolder : m.isFolder = false) (hname : EntryName.normalize? m.name = some name)
    (hformat : Format.ofName? name = none) (n : Nat) :
    ∃ a ∈ planOf mode c n members, a.name? = some name := by
  induction members generalizing n with
  | nil => cases hm
  | cons x rest ih =>
    rw [List.forall_mem_cons] at husable
    rw [planOf]
    rcases List.mem_cons.1 hm with rfl | hm
    · cases husable.1 with
      | folder hfolder' => exact absurd hfolder' (by simp [hfolder])
      | @file raw name' size content hname' hformat' =>
        obtain rfl := Option.some.inj (hname'.symm.trans hname)
        refine ⟨.file mode c raw name' size content, List.mem_append_left _ ?_, ?_⟩
        · simp [Member.plan, hname', hformat']
        · cases mode <;> rfl
      | container hname' hformat' =>
        obtain rfl := Option.some.inj (hname'.symm.trans hname)
        simp [hformat] at hformat'
    · obtain ⟨a, ha, haname⟩ := ih husable.2 hm (n + x.nestedCount)
      exact ⟨a, List.mem_append_right _ ha, haname⟩

theorem lastRead_planOf {c : Container} {d : Disk} {bytes : ByteArray} {blocks : List (List Member)}
    (hpath : Format.ofPath? c.path.text = some c.format)
    (hread : d.read? c.path = some (.packed c.format bytes blocks))
    (hclear : isUnambiguous c.format blocks = true) (husable : ∀ m ∈ blocks.flatten, m.IsUsable)
    (hinner : ∀ m ∈ blocks.flatten, ((EntryName.normalize? m.name).bind Format.ofName?).isSome →
      ∀ n, KeepsAside d (m.plan .index c n) → LastRead d (m.plan .index c n))
    {before members : List Member} (hmembers : blocks.flatten = before ++ members)
    (n : Nat) (haside : KeepsAside d (planOf .index c n members)) :
    LastRead d (planOf .index c n members) := by
  induction members generalizing before n with
  | nil => trivial
  | cons m rest ih =>
    have hm : m ∈ blocks.flatten := by simp [hmembers]
    obtain ⟨hfirst, hrest⟩ := List.forall_mem_append.1 haside
    have hlater := @ih (before ++ [m]) (by simpa using hmembers) _ hrest
    cases husable m hm with
    | folder hfolder => simpa [planOf, Member.plan_of_isFolder hfolder] using hlater
    | @file raw name size content hname hformat =>
      rw [planOf]
      simp only [Member.plan, hname, hformat, List.singleton_append]
      refine ⟨fun f location ha hlast => ?_, hlater⟩
      obtain ⟨rfl, rfl⟩ := Prod.mk.inj (Option.some.inj ha)
      suffices hfound : findMember? c.format blocks raw = some (.intact raw false size content) from
        Disk.readMember_of_found hpath hread hfound
      have hlookup : findMember? c.format blocks raw = blocks.flatten.findRev? (·.name = raw) :=
        findMember?_of_isUnambiguous hclear (fun x hx => (husable x hx).isReadable) hm rfl
      rw [hlookup, findRev?_eq_some_iff]
      refine ⟨decide_eq_true rfl, before, rest, hmembers, fun x hx => decide_eq_false fun hxname => ?_⟩
      have hx' : x ∈ blocks.flatten := by simp [hmembers, hx]
      have hxfolder : x.isFolder = false := Bool.eq_false_iff.2 fun hxfolder =>
        (isUnambiguous_iff.1 hclear).1 x hx' _ hm hxfolder rfl hxname
      obtain ⟨a, ha, haname⟩ := exists_mem_planOf (fun y hy => husable y (by simp [hmembers, hy])) hx hxfolder
        (hxname ▸ hname) hformat (n + (Member.intact raw false size content).nestedCount)
      exact hlast a ha haname
    | container hname hformat =>
      exact (hinner _ hm (by simp [Member.name, hname, hformat]) n hfirst).append hlater

theorem Member.IsUsable.lastRead {m : Member} (hm : m.IsUsable)
    (hclear : (m.containers.all fun (format, blocks) => isUnambiguous format blocks) = true)
    (hcontainer : ((EntryName.normalize? m.name).bind Format.ofName?).isSome) {c : Container} {n : Nat}
    {d : Disk} (haside : KeepsAside d (m.plan .index c n)) : LastRead d (m.plan .index c n) := by
  induction hm generalizing c n with
  | folder hfolder => simp [Member.plan_of_isFolder hfolder, LastRead]
  | file hname hformat => simp [Member.name, hname, hformat] at hcontainer
  | @container raw name format size bytes blocks hname hformat _ hmembers ih =>
    simp only [Member.containers, Content.containers, containersOfBlocks_eq, hname, hformat, Option.bind_some,
      List.all_cons, Bool.and_eq_true, List.all_flatMap] at hclear
    simp only [Member.plan, Content.plan, planOfBlocks_eq, hname, hformat] at haside ⊢
    obtain ⟨hput, hrest⟩ := List.forall_mem_cons.1 haside
    refine ⟨fun f location ha => by simp [Act.putAside] at ha, ?_⟩
    exact lastRead_planOf (Container.ofPath?_nested c n hformat) (hput rfl _ _ rfl) hclear.1 hmembers
      (fun m hm hcontainer n => ih m hm (List.all_eq_true.1 hclear.2 m hm) hcontainer) (List.nil_append _).symm _ hrest

/-- In a container on the disk, and in those put aside, each file can be read that comes last. -/
theorem Content.IsUsable.lastRead {content : Content} {c : Container} (h : content.IsUsable c.format)
    (hclear : content.isUnambiguous = true) {d : Disk} {n : Nat}
    (hpath : Format.ofPath? c.path.text = some c.format) (hread : d.read? c.path = some content)
    (haside : KeepsAside d (content.plan .index c n)) : LastRead d (content.plan .index c n) := by
  obtain ⟨hmembers⟩ := h
  simp only [Content.isUnambiguous, Content.containers, containersOfBlocks_eq, List.all_cons, Bool.and_eq_true,
    List.all_flatMap] at hclear
  rw [Content.plan, planOfBlocks_eq] at haside ⊢
  exact lastRead_planOf hpath hread hclear.1 hmembers
    (fun m hm hcontainer n => (hmembers m hm).lastRead (List.all_eq_true.1 hclear.2 m hm) hcontainer)
    (List.nil_append _).symm n haside

end Packed

end ModWeave
