import ModWeave.Index.Basic
import ModWeave.Proofs.Index.Register

/-!
The files of an archive in one list: those of the containers in it stand where these stand. What an
archive has to be like for that is stated beside it, and so is what it is for an archive to be put
into further containers.
-/
namespace ModWeave

/-- A file of a container or of a container in it. -/
structure Occurrence where
  /-- The normalized name. -/
  name : String
  /-- The containers down to the one that holds the file. -/
  chain : List String
  size : Nat
  bytes : ByteArray

namespace Occurrence

/-- The last segment of the name in lower case. -/
def fileName (f : Occurrence) : String := Text.lowercase (EntryName.base f.name)

/-- The file, seen from outside of further containers. -/
def within (outer : List String) (f : Occurrence) : Occurrence := { f with chain := outer ++ f.chain }

end Occurrence

mutual

/-- The files of a container, depth first, that stands in a chain of containers. -/
def Content.files (chain : List String) : Content → List Occurrence
  | .packed _ _ blocks => filesOfBlocks chain blocks
  | .plain _ | .contradictory .. => []

def filesOfBlocks (chain : List String) : List (List Member) → List Occurrence
  | [] => []
  | block :: rest => filesOf chain block ++ filesOfBlocks chain rest

def filesOf (chain : List String) : List Member → List Occurrence
  | [] => []
  | m :: rest => m.files chain ++ filesOf chain rest

/-- Folders are left out, and so is a container itself. -/
def Member.files (chain : List String) : Member → List Occurrence
  | .intact raw false size content =>
    match EntryName.normalize? raw with
    | none => []
    | some name =>
      match Format.ofName? name with
      | none => [⟨name, chain, size, content.bytes⟩]
      | some _ => content.files (chain ++ [name])
  | _ => []

end

mutual

/-- How many containers are in a container, at any depth. -/
def Content.nestedCount : Content → Nat
  | .packed _ _ blocks => nestedCountOfBlocks blocks
  | .plain _ | .contradictory .. => 0

def nestedCountOfBlocks : List (List Member) → Nat
  | [] => 0
  | block :: rest => nestedCountOf block + nestedCountOfBlocks rest

def nestedCountOf : List Member → Nat
  | [] => 0
  | m :: rest => m.nestedCount + nestedCountOf rest

def Member.nestedCount : Member → Nat
  | .intact raw false _ content =>
    match (EntryName.normalize? raw).bind Format.ofName? with
    | none => 0
    | some _ => content.nestedCount + 1
  | _ => 0

end

theorem Member.nestedCount_of_isFolder {m : Member} (h : m.isFolder = true) : m.nestedCount = 0 := by
  unfold Member.nestedCount
  split
  · cases h
  · rfl

/-- Whether a member can be taken as it is: the name of a file is safe, what states to have no bytes
has none, and what is named as a container is one of that format, with members that can be taken. -/
inductive Member.IsSound : Member → Prop
  | folder (raw : String) (size : Nat) (content : Content) : IsSound (.intact raw true size content)
  | file {raw name : String} {size : Nat} {content : Content}
      (hname : EntryName.normalize? raw = some name) (hformat : Format.ofName? name = none)
      (hsize : size = 0 → content.size = 0) : IsSound (.intact raw false size content)
  | container {raw name : String} {format : Format} {size : Nat} {bytes : ByteArray}
      {blocks : List (List Member)} (hname : EntryName.normalize? raw = some name)
      (hformat : Format.ofName? name = some format) (hsize : size ≠ 0)
      (hmembers : ∀ m ∈ blocks.flatten, m.IsSound) : IsSound (.intact raw false size (.packed format bytes blocks))

/-- A container of the format with members that can be taken. -/
inductive Content.IsSound (format : Format) : Content → Prop
  | packed {bytes : ByteArray} {blocks : List (List Member)} (hmembers : ∀ m ∈ blocks.flatten, m.IsSound) :
    IsSound format (.packed format bytes blocks)

/-- Whether a member can be visited and read: as one that is sound, except that a folder's own record
may be anything, as nothing looks at it. -/
inductive Member.IsUsable : Member → Prop
  | folder {m : Member} (hfolder : m.isFolder = true) : IsUsable m
  | file {raw name : String} {size : Nat} {content : Content}
      (hname : EntryName.normalize? raw = some name) (hformat : Format.ofName? name = none)
      (hsize : size = 0 → content.size = 0) : IsUsable (.intact raw false size content)
  | container {raw name : String} {format : Format} {size : Nat} {bytes : ByteArray}
      {blocks : List (List Member)} (hname : EntryName.normalize? raw = some name)
      (hformat : Format.ofName? name = some format) (hsize : size ≠ 0)
      (hmembers : ∀ m ∈ blocks.flatten, m.IsUsable) :
      IsUsable (.intact raw false size (.packed format bytes blocks))

/-- A container of the format with members that can be visited and read. -/
inductive Content.IsUsable (format : Format) : Content → Prop
  | packed {bytes : ByteArray} {blocks : List (List Member)} (hmembers : ∀ m ∈ blocks.flatten, m.IsUsable) :
    IsUsable format (.packed format bytes blocks)

theorem Member.IsUsable.isReadable {m : Member} (hm : m.IsUsable) : m.isUnreadable = false := by
  cases hm with
  | @folder m hfolder => cases m <;> first | rfl | cases hfolder
  | file => rfl
  | container => rfl

theorem Member.IsSound.isUsable {m : Member} (hm : m.IsSound) : m.IsUsable := by
  induction hm with
  | folder => exact .folder rfl
  | file hname hformat hsize => exact .file hname hformat hsize
  | container hname hformat hsize _ ih => exact .container hname hformat hsize ih

theorem Content.IsSound.isUsable {format : Format} {content : Content} (h : content.IsSound format) :
    content.IsUsable format := by
  obtain ⟨hmembers⟩ := h
  exact .packed fun m hm => (hmembers m hm).isUsable

mutual

/-- A container and all containers in it, each by its format and its blocks. -/
def Content.containers : Content → List (Format × List (List Member))
  | .packed format _ blocks => (format, blocks) :: containersOfBlocks blocks
  | .plain _ | .contradictory .. => []

def containersOfBlocks : List (List Member) → List (Format × List (List Member))
  | [] => []
  | block :: rest => containersOf block ++ containersOfBlocks rest

def containersOf : List Member → List (Format × List (List Member))
  | [] => []
  | m :: rest => m.containers ++ containersOf rest

def Member.containers : Member → List (Format × List (List Member))
  | .intact raw false _ content =>
    match (EntryName.normalize? raw).bind Format.ofName? with
    | none => []
    | some _ => content.containers
  | _ => []

end

section Blocks

variable (chain : List String) (members : List Member) (blocks : List (List Member))

theorem filesOf_eq : filesOf chain members = members.flatMap (·.files chain) := by
  induction members with
  | nil => rfl
  | cons m rest ih => rw [filesOf, ih, List.flatMap_cons]

theorem filesOfBlocks_eq : filesOfBlocks chain blocks = blocks.flatten.flatMap (·.files chain) := by
  induction blocks with
  | nil => rfl
  | cons block rest ih => rw [filesOfBlocks, filesOf_eq, ih, List.flatten_cons, List.flatMap_append]

theorem nestedCountOf_append (others : List Member) :
    nestedCountOf (members ++ others) = nestedCountOf members + nestedCountOf others := by
  induction members with
  | nil => exact (Nat.zero_add _).symm
  | cons m rest ih => rw [List.cons_append, nestedCountOf, nestedCountOf, ih, Nat.add_assoc]

theorem nestedCountOf_eq_zero {members : List Member} (h : ∀ m ∈ members, m.nestedCount = 0) :
    nestedCountOf members = 0 := by
  induction members with
  | nil => rfl
  | cons m rest ih =>
    obtain ⟨hm, hrest⟩ := List.forall_mem_cons.1 h
    rw [nestedCountOf, hm, ih hrest]

theorem nestedCountOfBlocks_eq : nestedCountOfBlocks blocks = nestedCountOf blocks.flatten := by
  induction blocks with
  | nil => rfl
  | cons block rest ih => rw [nestedCountOfBlocks, ih, List.flatten_cons, nestedCountOf_append]

theorem containersOf_eq : containersOf members = members.flatMap Member.containers := by
  induction members with
  | nil => rfl
  | cons m rest ih => rw [containersOf, ih, List.flatMap_cons]

theorem containersOfBlocks_eq : containersOfBlocks blocks = blocks.flatten.flatMap Member.containers := by
  induction blocks with
  | nil => rfl
  | cons block rest ih => rw [containersOfBlocks, containersOf_eq, ih, List.flatten_cons, List.flatMap_append]

end Blocks

/-- Whether the name of a file, looked up in its container, leads to the last file of that name: no folder stands
under it, and where blocks are gone through none has two files of the name. -/
def isUnambiguous (format : Format) (blocks : List (List Member)) : Bool :=
  (blocks.flatten.all fun m => blocks.flatten.all fun f => !(m.isFolder && !f.isFolder && m.name == f.name)) &&
    (format == .zip || blocks.all fun block => ((block.filter (!·.isFolder)).map Member.name).Nodup)

/-- Whether that is so in a container and in all containers in it. -/
def Content.isUnambiguous (content : Content) : Bool :=
  content.containers.all fun (format, blocks) => ModWeave.isUnambiguous format blocks

theorem isUnambiguous_iff {format : Format} {blocks : List (List Member)} :
    isUnambiguous format blocks = true ↔
      (∀ x ∈ blocks.flatten, ∀ m ∈ blocks.flatten, x.isFolder = true → m.isFolder = false → x.name ≠ m.name) ∧
        (format = .sevenZ → ∀ block ∈ blocks, ((block.filter (!·.isFolder)).map Member.name).Nodup) := by
  have hformat : (format == .zip) = true ↔ format ≠ .sevenZ := by cases format <;> decide
  simp only [isUnambiguous, Bool.and_eq_true, List.all_eq_true, Bool.or_eq_true, hformat, decide_eq_true_eq,
    Bool.not_eq_true', Bool.and_eq_false_iff, Bool.not_eq_false', beq_eq_false_iff_ne, ← imp_iff_not_or]
  grind

/-- A container around an archive, with nothing else in it but further containers around the archive. The
names are those of the archive and of the containers between the two, outermost first. -/
inductive Wraps (content : Content) : List String → Content → Prop
  | self : Wraps content [] content
  | around {names : List String} {inner : Content} (h : Wraps content names inner) {raw name : String}
      {format format' : Format} {bytes : ByteArray} {size : Nat} {blocks : List (List Member)}
      (hname : EntryName.normalize? raw = some name) (hformat : Format.ofName? name = some format)
      (honly : blocks.flatten = [.intact raw false size inner]) :
      Wraps content (name :: names) (.packed format' bytes blocks)

/-- A container around an archive has the files of the archive, further down. -/
theorem Wraps.files {content outer : Content} {names : List String} (h : Wraps content names outer)
    (chain : List String) : outer.files chain = content.files (chain ++ names) := by
  induction h generalizing chain with
  | self => rw [List.append_nil]
  | around _ hname hformat honly ih => simp [Content.files, filesOfBlocks_eq, Member.files, honly, hname, hformat, ih]

mutual

theorem Content.files_append (outer chain : List String) (content : Content) :
    content.files (outer ++ chain) = (content.files chain).map (·.within outer) := by
  cases content with
  | plain => rfl
  | contradictory => rfl
  | packed _ _ blocks => exact filesOfBlocks_append outer chain blocks

theorem filesOfBlocks_append (outer chain : List String) (blocks : List (List Member)) :
    filesOfBlocks (outer ++ chain) blocks = (filesOfBlocks chain blocks).map (·.within outer) := by
  cases blocks with
  | nil => rfl
  | cons block rest =>
    rw [filesOfBlocks, filesOfBlocks, List.map_append, filesOf_append, filesOfBlocks_append]

theorem filesOf_append (outer chain : List String) (members : List Member) :
    filesOf (outer ++ chain) members = (filesOf chain members).map (·.within outer) := by
  cases members with
  | nil => rfl
  | cons m rest =>
    rw [filesOf, filesOf, List.map_append, Member.files_append, filesOf_append]

theorem Member.files_append (outer chain : List String) (m : Member) :
    m.files (outer ++ chain) = (m.files chain).map (·.within outer) := by
  unfold Member.files
  split
  · split
    · rfl
    · split
      · rfl
      · rw [List.append_assoc, Content.files_append]
  · rfl

end

theorem Member.IsSound.isContainer_of_mem {m : Member} (hm : m.IsSound) {chain : List String}
    {f : Occurrence} (hf : f ∈ m.files chain) : Format.isContainer f.name = false := by
  induction hm generalizing chain with
  | folder => simp [Member.files] at hf
  | file hname hformat =>
    simp only [Member.files, hname, hformat, List.mem_singleton] at hf
    simp [hf, Format.isContainer, hformat]
  | container hname hformat _ _ ih =>
    simp only [Member.files, hname, hformat, Content.files, filesOfBlocks_eq] at hf
    obtain ⟨m, hm, hf⟩ := List.mem_flatMap.1 hf
    exact ih m hm hf

/-- No container is among the files. -/
theorem Content.IsSound.isContainer_of_mem {format : Format} {content : Content}
    (h : content.IsSound format) {chain : List String} {f : Occurrence}
    (hf : f ∈ content.files chain) : Format.isContainer f.name = false := by
  obtain ⟨hmembers⟩ := h
  rw [Content.files, filesOfBlocks_eq] at hf
  obtain ⟨m, hm, hf⟩ := List.mem_flatMap.1 hf
  exact (hmembers m hm).isContainer_of_mem hf

end ModWeave
