import ModWeave.Proofs.Index.Flatten
import ModWeave.Proofs.Index.Naming

/-!
What a visit of a container does, laid down in advance: which files it registers and what it writes,
in order. Two files are written to one place only if they have one name, as long as no file's name leads
into a folder that a nested container gets.
-/
namespace ModWeave

/-- What a visit does for a member. -/
structure Act where
  /-- The file that is registered, and where its bytes are. A container is not. -/
  registers : Option (Occurrence × Location)
  /-- What is written. -/
  writes : Option (Path × Content)

namespace Act

/-- A file is registered where it stands, or where it is written to. A file without bytes is not
read. -/
def file (mode : IndexMode) (c : Container) (raw name : String) (size : Nat) (content : Content) :
    Act :=
  let f : Occurrence := ⟨name, c.chain, size, content.bytes⟩
  match mode with
  | .index => ⟨some (f, .packed c.path raw), none⟩
  | .extract =>
    let path := c.target ++ EntryName.segments name
    ⟨some (f, .extracted path), some (path, if size = 0 then .empty else content)⟩

def putAside (path : Path) (content : Content) : Act := ⟨none, some (path, content)⟩

/-- The name of the file, if it is one. -/
def name? (a : Act) : Option String := a.registers.map (·.1.name)

/-- Where it is written to. -/
def path? (a : Act) : Option Path := a.writes.map Prod.fst

end Act

mutual

/-- What a visit of a container does, when nested containers get the numbers from `n` on. -/
def Content.plan (mode : IndexMode) (c : Container) (n : Nat) : Content → List Act
  | .packed _ _ blocks => planOfBlocks mode c n blocks
  | .plain _ | .contradictory .. => []

def planOfBlocks (mode : IndexMode) (c : Container) (n : Nat) : List (List Member) → List Act
  | [] => []
  | block :: rest => planOf mode c n block ++ planOfBlocks mode c (n + nestedCountOf block) rest

def planOf (mode : IndexMode) (c : Container) (n : Nat) : List Member → List Act
  | [] => []
  | m :: rest => m.plan mode c n ++ planOf mode c (n + m.nestedCount) rest

def Member.plan (mode : IndexMode) (c : Container) (n : Nat) : Member → List Act
  | .intact raw false size content =>
    match EntryName.normalize? raw with
    | none => []
    | some name =>
      match Format.ofName? name with
      | none => [.file mode c raw name size content]
      | some format =>
        let inner := c.nested n name format
        .putAside inner.path content :: content.plan mode inner (n + 1)
  | _ => []

end

theorem Member.plan_of_isFolder {m : Member} (h : m.isFolder = true) (mode : IndexMode) (c : Container)
    (n : Nat) : m.plan mode c n = [] := by
  unfold Member.plan
  split
  · cases h
  · rfl

section Blocks

variable (mode : IndexMode) (c : Container) (n : Nat)

theorem planOf_append (members members' : List Member) : planOf mode c n (members ++ members') =
    planOf mode c n members ++ planOf mode c (n + nestedCountOf members) members' := by
  induction members generalizing n with
  | nil => rfl
  | cons m rest ih =>
    rw [List.cons_append, planOf, planOf, nestedCountOf, ih, List.append_assoc, Nat.add_assoc]

/-- How members are parted into blocks plays no part in what is planned. -/
theorem planOfBlocks_eq (blocks : List (List Member)) :
    planOfBlocks mode c n blocks = planOf mode c n blocks.flatten := by
  induction blocks generalizing n with
  | nil => rfl
  | cons block rest ih => rw [planOfBlocks, List.flatten_cons, planOf_append, ih]

end Blocks

mutual

/-- The files that are registered are the files of the container. -/
theorem Content.registers_plan (mode : IndexMode) (c : Container) (n : Nat) (content : Content) :
    ((content.plan mode c n).filterMap Act.registers).map Prod.fst = content.files c.chain := by
  cases content with
  | plain => rfl
  | contradictory => rfl
  | packed _ _ blocks => exact registers_planOfBlocks mode c n blocks

theorem registers_planOfBlocks (mode : IndexMode) (c : Container) (n : Nat) (blocks : List (List Member)) :
    ((planOfBlocks mode c n blocks).filterMap Act.registers).map Prod.fst = filesOfBlocks c.chain blocks := by
  cases blocks with
  | nil => rfl
  | cons block rest =>
    rw [planOfBlocks, filesOfBlocks, List.filterMap_append, List.map_append, registers_planOf,
      registers_planOfBlocks]

theorem registers_planOf (mode : IndexMode) (c : Container) (n : Nat) (members : List Member) :
    ((planOf mode c n members).filterMap Act.registers).map Prod.fst = filesOf c.chain members := by
  cases members with
  | nil => rfl
  | cons m rest =>
    rw [planOf, filesOf, List.filterMap_append, List.map_append, Member.registers_plan,
      registers_planOf]

theorem Member.registers_plan (mode : IndexMode) (c : Container) (n : Nat) (m : Member) :
    ((m.plan mode c n).filterMap Act.registers).map Prod.fst = m.files c.chain := by
  match m with
  | .intact _ true .. | .damaged .. | .unreadable _ | .contradictory _ => rfl
  | .intact raw false size content =>
    simp only [Member.plan, Member.files]
    cases EntryName.normalize? raw with
    | none => rfl
    | some name =>
      dsimp only
      cases Format.ofName? name with
      | none => cases mode <;> rfl
      | some format => exact Content.registers_plan mode (c.nested n name format) (n + 1) content

end

namespace Act

/-- Whether a file that is registered is written with its bytes to where it is said to be. -/
def Delivers (a : Act) : Prop :=
  ∀ f location, a.registers = some (f, location) →
    ∃ path content, location = .extracted path ∧ a.writes = some (path, content) ∧
      content.bytes = f.bytes

/-- Whether what is written goes to an extracted file's place below a folder, or into the folder of a nested container
that is given a number from `lo` to below `hi`. -/
def GoesBelow (mode : IndexMode) (folder : Path) (clock : Nat → Nat) (lo hi : Nat) (a : Act) : Prop :=
  ∀ path, a.path? = some path →
    (mode = .extract ∧ ∃ name, a.name? = some name ∧ path = folder ++ EntryName.segments name) ∨
    ∃ k name rest, lo ≤ k ∧ k < hi ∧ path = folder ++ Container.nestedFolder (clock k) k name :: rest

/-- Whether a file's name does not lead into such a folder. -/
def IsOff (clock : Nat → Nat) (lo hi : Nat) (a : Act) : Prop :=
  ∀ name, a.name? = some name → ∀ k other rest, lo ≤ k → k < hi →
    EntryName.segments name ≠ Container.nestedFolder (clock k) k other :: rest

/-- Whether two of them, if they write to one place, both write a file and these have one name. -/
def KeepsOff (a b : Act) : Prop :=
  ∀ path, a.path? = some path → b.path? = some path →
    ∃ name, a.name? = some name ∧ b.name? = some name

theorem file_delivers {c : Container} {raw name : String} {size : Nat} {content : Content}
    (hsize : size = 0 → content.size = 0) : (file .extract c raw name size content).Delivers := by
  intro f location h
  obtain ⟨rfl, rfl⟩ := Prod.mk.inj (Option.some.inj h)
  refine ⟨_, _, rfl, rfl, ?_⟩
  split
  · next hzero => exact (ByteArray.size_eq_zero_iff.1 (hsize hzero)).symm
  · rfl

theorem file_goesBelow (mode : IndexMode) (c : Container) (raw name : String) (size : Nat) (content : Content)
    (lo hi : Nat) : (file mode c raw name size content).GoesBelow mode c.target c.clock lo hi := by
  intro path hpath
  cases mode with
  | index => cases hpath
  | extract =>
    obtain rfl := Option.some.inj hpath
    exact .inl ⟨rfl, name, rfl, rfl⟩

section GoesBelow

variable {mode : IndexMode} {folder path : Path} {clock : Nat → Nat} {lo hi lo' hi' : Nat} {a b : Act}

theorem IsOff.mono (h : a.IsOff clock lo hi) (hlo : lo ≤ lo') (hhi : hi' ≤ hi) : a.IsOff clock lo' hi' :=
  fun name hname k other rest hk hk' => h name hname k other rest (by omega) (by omega)

theorem GoesBelow.mono (h : a.GoesBelow mode folder clock lo hi) (hlo : lo' ≤ lo) (hhi : hi ≤ hi') :
    a.GoesBelow mode folder clock lo' hi' := by
  intro path hpath
  obtain h | ⟨k, name, rest, hk, hk', h⟩ := h path hpath
  · exact .inl h
  · exact .inr ⟨k, name, rest, by omega, by omega, h⟩

theorem GoesBelow.isPrefix (h : a.GoesBelow mode folder clock lo hi) (hpath : a.path? = some path) :
    folder <+: path := by
  obtain ⟨-, name, -, rfl⟩ | ⟨k, name, rest, -, -, rfl⟩ := h path hpath <;> exact List.prefix_append _ _

/-- What a nested container has below its files goes below its own folder. -/
theorem GoesBelow.nested {c : Container} {n : Nat} {name : String} {format : Format}
    (h : a.GoesBelow mode (c.nested n name format).target c.clock lo hi) (m : Nat) :
    a.GoesBelow mode c.target c.clock n (n + m + 1) := by
  intro path hpath
  refine .inr ⟨n, name, ?_⟩
  obtain ⟨-, inner, -, rfl⟩ | ⟨k, inner, rest, -, -, rfl⟩ := h path hpath
  · exact ⟨"files" :: EntryName.segments inner, by omega, by omega, by simp [Container.nested]⟩
  · exact ⟨"files" :: Container.nestedFolder (c.clock k) k inner :: rest, by omega, by omega,
      by simp [Container.nested]⟩

/-- Files meet only under one name, nested folders only under one number, and no file meets a nested folder. -/
theorem GoesBelow.keepsOff {mid : Nat} (ha : a.GoesBelow mode folder clock lo mid)
    (hb : b.GoesBelow mode folder clock mid hi) (hoff : mode = .extract → a.IsOff clock mid hi)
    (hoff' : mode = .extract → b.IsOff clock lo mid) : a.KeepsOff b := by
  intro path hpa hpb
  obtain ⟨hmode, name, hname, rfl⟩ | ⟨k, x, rest, hk, hk', rfl⟩ := ha path hpa
  · obtain ⟨-, name', hname', heq⟩ | ⟨k', x', rest', hk, hk', heq⟩ := hb _ hpb
    · obtain rfl := EntryName.segments_injective (List.append_cancel_left heq)
      exact ⟨name, hname, hname'⟩
    · exact absurd (List.append_cancel_left heq) (hoff hmode name hname k' x' rest' hk hk')
  · obtain ⟨hmode, name', hname', heq⟩ | ⟨k', x', rest', hk'', -, heq⟩ := hb _ hpb
    · exact absurd (List.append_cancel_left heq).symm (hoff' hmode name' hname' k x rest hk hk')
    · have hk := Container.nestedFolder_number (List.cons.inj (List.append_cancel_left heq)).1
      omega

theorem putAside_goesBelow {c : Container} {n : Nat} {name : String} {format : Format}
    {content : Content} (m : Nat) :
    (putAside (c.nested n name format).path content).GoesBelow mode c.target c.clock n (n + (m + 1)) := by
  intro path hpath
  obtain rfl : (c.nested n name format).path = path := Option.some.inj hpath
  exact .inr ⟨n, name, _, Nat.le_refl n, by omega, by simp only [Container.nested, List.append_assoc]; rfl⟩

/-- A container is put beside the folder of its files. -/
theorem putAside_keepsOff {c : Container} {n : Nat} {name : String} {format : Format} {content : Content}
    (h : a.GoesBelow mode (c.nested n name format).target clock lo hi) :
    (putAside (c.nested n name format).path content).KeepsOff a := by
  intro path hp hpa
  obtain rfl : (c.nested n name format).path = path := Option.some.inj hp
  have hbelow := h.isPrefix hpa
  simp [Container.nested] at hbelow

end GoesBelow

end Act

section Plan

variable {mode : IndexMode} {c : Container} {members : List Member}

theorem forall_planOf {P : Act → Prop} (h : ∀ m ∈ members, ∀ n, ∀ a ∈ m.plan mode c n, P a) (n : Nat) :
    ∀ a ∈ planOf mode c n members, P a := by
  induction members generalizing n with
  | nil => simp [planOf]
  | cons m rest ih =>
    rw [List.forall_mem_cons] at h
    rw [planOf, List.forall_mem_append]
    exact ⟨h.1 n, ih h.2 _⟩

end Plan

mutual

/-- What a visit of a container writes goes below the folder of its files. -/
theorem Content.goesBelow (mode : IndexMode) (c : Container) (n : Nat) (content : Content) :
    ∀ a ∈ content.plan mode c n, a.GoesBelow mode c.target c.clock n (n + content.nestedCount) := by
  cases content with
  | plain => simp [Content.plan]
  | contradictory => simp [Content.plan]
  | packed _ _ blocks => exact goesBelow_planOfBlocks mode c n blocks

theorem goesBelow_planOfBlocks (mode : IndexMode) (c : Container) (n : Nat) (blocks : List (List Member)) :
    ∀ a ∈ planOfBlocks mode c n blocks,
      a.GoesBelow mode c.target c.clock n (n + nestedCountOfBlocks blocks) := by
  cases blocks with
  | nil => simp [planOfBlocks]
  | cons block rest =>
    rw [planOfBlocks, nestedCountOfBlocks, List.forall_mem_append]
    exact ⟨fun a ha => (goesBelow_planOf mode c n block a ha).mono (by omega) (by omega),
      fun a ha => (goesBelow_planOfBlocks mode c _ rest a ha).mono (by omega) (by omega)⟩

theorem goesBelow_planOf (mode : IndexMode) (c : Container) (n : Nat) (members : List Member) :
    ∀ a ∈ planOf mode c n members, a.GoesBelow mode c.target c.clock n (n + nestedCountOf members) := by
  cases members with
  | nil => simp [planOf]
  | cons m rest =>
    rw [planOf, nestedCountOf, List.forall_mem_append]
    exact ⟨fun a ha => (Member.goesBelow mode c n m a ha).mono (by omega) (by omega),
      fun a ha => (goesBelow_planOf mode c _ rest a ha).mono (by omega) (by omega)⟩

theorem Member.goesBelow (mode : IndexMode) (c : Container) (n : Nat) (m : Member) :
    ∀ a ∈ m.plan mode c n, a.GoesBelow mode c.target c.clock n (n + m.nestedCount) := by
  match m with
  | .intact _ true .. | .damaged .. | .unreadable _ | .contradictory _ => simp [Member.plan]
  | .intact raw false size content =>
    cases hname : EntryName.normalize? raw with
    | none => simp [Member.plan, hname]
    | some name =>
      cases hformat : Format.ofName? name with
      | none =>
        simp only [Member.plan, hname, hformat, List.forall_mem_singleton]
        exact Act.file_goesBelow mode c raw name size content _ _
      | some format =>
        simp only [Member.plan, Member.nestedCount, hname, hformat, List.forall_mem_cons, Option.bind_some]
        exact ⟨Act.putAside_goesBelow _,
          fun a ha => (Content.goesBelow mode _ (n + 1) content a ha).nested _⟩

end

mutual

/-- Of what a visit of a container writes only files of one name meet, if no file is in the way of the folders of
nested containers. -/
theorem Content.keepsOff (mode : IndexMode) (c : Container) (n : Nat) (content : Content)
    (hoff : mode = .extract → ∀ a ∈ content.plan mode c n, a.IsOff c.clock n (n + content.nestedCount)) :
    (content.plan mode c n).Pairwise Act.KeepsOff := by
  cases content with
  | plain => exact .nil
  | contradictory => exact .nil
  | packed _ _ blocks => exact keepsOff_planOfBlocks mode c n blocks hoff

theorem keepsOff_planOfBlocks (mode : IndexMode) (c : Container) (n : Nat) (blocks : List (List Member))
    (hoff : mode = .extract → ∀ a ∈ planOfBlocks mode c n blocks,
      a.IsOff c.clock n (n + nestedCountOfBlocks blocks)) :
    (planOfBlocks mode c n blocks).Pairwise Act.KeepsOff := by
  cases blocks with
  | nil => exact .nil
  | cons block rest =>
    simp only [planOfBlocks, nestedCountOfBlocks, List.forall_mem_append] at hoff
    rw [planOfBlocks, List.pairwise_append]
    refine ⟨keepsOff_planOf mode c n block fun hmode a ha => ?_,
      keepsOff_planOfBlocks mode c _ rest fun hmode a ha => ?_, fun a ha b hb => ?_⟩
    · exact ((hoff hmode).1 a ha).mono (by omega) (by omega)
    · exact ((hoff hmode).2 a ha).mono (by omega) (by omega)
    · exact (goesBelow_planOf mode c n block a ha).keepsOff (goesBelow_planOfBlocks mode c _ rest b hb)
        (fun hmode => ((hoff hmode).1 a ha).mono (by omega) (by omega))
        fun hmode => ((hoff hmode).2 b hb).mono (by omega) (by omega)

theorem keepsOff_planOf (mode : IndexMode) (c : Container) (n : Nat) (members : List Member)
    (hoff : mode = .extract → ∀ a ∈ planOf mode c n members, a.IsOff c.clock n (n + nestedCountOf members)) :
    (planOf mode c n members).Pairwise Act.KeepsOff := by
  cases members with
  | nil => exact .nil
  | cons m rest =>
    simp only [planOf, nestedCountOf, List.forall_mem_append] at hoff
    rw [planOf, List.pairwise_append]
    refine ⟨Member.keepsOff mode c n m fun hmode a ha => ?_,
      keepsOff_planOf mode c _ rest fun hmode a ha => ?_, fun a ha b hb => ?_⟩
    · exact ((hoff hmode).1 a ha).mono (by omega) (by omega)
    · exact ((hoff hmode).2 a ha).mono (by omega) (by omega)
    · exact (m.goesBelow mode c n a ha).keepsOff (goesBelow_planOf mode c _ rest b hb)
        (fun hmode => ((hoff hmode).1 a ha).mono (by omega) (by omega))
        fun hmode => ((hoff hmode).2 b hb).mono (by omega) (by omega)

theorem Member.keepsOff (mode : IndexMode) (c : Container) (n : Nat) (m : Member)
    (hoff : mode = .extract → ∀ a ∈ m.plan mode c n, a.IsOff c.clock n (n + m.nestedCount)) :
    (m.plan mode c n).Pairwise Act.KeepsOff := by
  match m with
  | .intact _ true .. | .damaged .. | .unreadable _ | .contradictory _ => exact .nil
  | .intact raw false size content =>
    cases hname : EntryName.normalize? raw with
    | none => simp [Member.plan, hname]
    | some name =>
      cases hformat : Format.ofName? name with
      | none => simp [Member.plan, hname, hformat]
      | some format =>
        simp only [Member.plan, Member.nestedCount, hname, hformat, List.forall_mem_cons, Option.bind_some] at hoff ⊢
        refine List.pairwise_cons.2 ⟨fun a ha => Act.putAside_keepsOff (content.goesBelow mode _ (n + 1) a ha),
          Content.keepsOff mode _ _ content fun hmode a ha => ?_⟩
        exact ((hoff hmode).2 a ha).mono (by omega) (by omega)

end

/-- Whether no file of a container, at any depth, has a name that leads into the folder that a container in it gets, where
the numbers are given out from `n` on. -/
def Content.HasFreshFolders (clock : Nat → Nat) (n : Nat) (content : Content) : Prop :=
  ∀ f ∈ content.files [], ∀ k other rest, n ≤ k → k < n + content.nestedCount →
    EntryName.segments f.name ≠ Container.nestedFolder (clock k) k other :: rest

/-- What has a name in a plan is a file. -/
theorem Content.exists_file_of_mem_plan {mode : IndexMode} {c : Container} {n : Nat} {content : Content} {a : Act}
    (ha : a ∈ content.plan mode c n) {name : String} (hname : a.name? = some name) :
    ∃ f ∈ content.files [], f.name = name := by
  obtain ⟨⟨f, location⟩, hregisters, rfl⟩ := Option.map_eq_some_iff.1 hname
  have hf : f ∈ content.files c.chain := by
    rw [← content.registers_plan mode c n]
    exact List.mem_map.2 ⟨(f, location), List.mem_filterMap.2 ⟨a, ha, hregisters⟩, rfl⟩
  rw [← List.append_nil c.chain, Content.files_append] at hf
  obtain ⟨g, hg, rfl⟩ := List.mem_map.1 hf
  exact ⟨g, hg, rfl⟩

/-- Where the folders of nested containers are fresh, only files of one name meet. -/
theorem Content.HasFreshFolders.keepsOff {mode : IndexMode} {c : Container} {n : Nat} {content : Content}
    (h : mode = .extract → content.HasFreshFolders c.clock n) : (content.plan mode c n).Pairwise Act.KeepsOff := by
  refine Content.keepsOff mode c n content fun hmode a ha name hname => ?_
  obtain ⟨f, hf, rfl⟩ := exists_file_of_mem_plan ha hname
  exact h hmode f hf

theorem Member.IsUsable.delivers {m : Member} (hm : m.IsUsable) (c : Container) (n : Nat) :
    ∀ a ∈ m.plan .extract c n, a.Delivers := by
  induction hm generalizing c n with
  | folder hfolder => simp [Member.plan_of_isFolder hfolder]
  | file hname hformat hsize =>
    simp only [Member.plan, hname, hformat, List.forall_mem_singleton]
    exact Act.file_delivers hsize
  | container hname hformat _ _ ih =>
    simp only [Member.plan, Content.plan, planOfBlocks_eq, hname, hformat, List.forall_mem_cons]
    exact ⟨fun f location h => by simp [Act.putAside] at h,
      forall_planOf (fun m hm n => ih m hm _ n) (n + 1)⟩

/-- Every file of a container that can be used is written out with its bytes. -/
theorem Content.IsUsable.delivers {content : Content} {c : Container} (h : content.IsUsable c.format)
    (n : Nat) : ∀ a ∈ content.plan .extract c n, a.Delivers := by
  obtain ⟨hmembers⟩ := h
  rw [Content.plan, planOfBlocks_eq]
  exact forall_planOf (fun m hm n => (hmembers m hm).delivers c n) n

end ModWeave
