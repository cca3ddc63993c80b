import ModWeave.Index.Basic

/-!
Building indexes. A container's members are visited in order; a member that is itself a container
is put aside on the disk and visited in turn.
-/
namespace ModWeave

/-- Whether files stay in their containers or are written out. -/
inductive IndexMode where
  | index
  | extract
deriving DecidableEq, Repr

/-- A container under visit. -/
structure Container where
  path : Path
  /-- The path as messages show it. -/
  shown : String
  format : Format
  /-- The containers from the archive down to this one. -/
  chain : List String
  /-- The folder that its files go to. -/
  target : Path
  /-- What the clock shows, in milliseconds, when each number is given out. -/
  clock : Nat → Nat

/-- How far a visit has come. Of several failures the last one counts; a contradiction ends all. -/
structure Visit where
  disk : Disk
  index : Index
  failure : Option ArchiveError

namespace Visit

def fail (v : Visit) (e : ArchiveError) : Visit := { v with failure := some e }

/-- Writes a member out. A file without bytes is not read, so it cannot turn out damaged. -/
def write (v : Visit) (path : Path) (size : Nat) (content? : Option Content) : Visit :=
  let content? := if size = 0 then some .empty else content?
  match v.disk.makeFolders? path.dropLast with
  | none => v.fail .io
  | some disk =>
    match disk.write? path (content?.getD .empty), content? with
    | some disk, some _ => { v with disk }
    | some disk, none => { v with disk, failure := some .io }
    | none, _ => { v with disk, failure := some .io }

/-- Registers a file of the container, and writes it out if files are extracted. -/
def file (v : Visit) (mode : IndexMode) (c : Container) (raw name : String) (size : Nat)
    (content? : Option Content) : Visit :=
  let entry (location : Location) : Entry := ⟨name, c.chain, location, size⟩
  match mode with
  | .index => { v with index := v.index.register (entry (.packed c.path raw)) }
  | .extract =>
    let path := c.target ++ EntryName.segments name
    let v := v.write path size content?
    if v.failure.isSome then v
    else { v with index := v.index.register (entry (.extracted path)) }

end Visit

namespace Container

/-- Names the folder for a container in another one by a time, a number and the container's own name. No other
container gets the number, but an entry may be named like that as well. -/
def nestedFolder (time number : Nat) (name : String) : String :=
  s!"_nested_{time}_{number}_{EntryName.sanitize (EntryName.base name)}"

/-- A container in this one, put aside in a new folder. -/
def nested (c : Container) (number : Nat) (name : String) (format : Format) : Container :=
  let folder := c.target ++ [nestedFolder (c.clock number) number name]
  let path := folder ++ ["source", EntryName.sanitize (EntryName.base name)]
  ⟨path, path.text, format, c.chain ++ [name], folder ++ ["files"], c.clock⟩

/-- Whether a failure ends the visit of a container. A zip container is left at any failure, a 7z container only
where a member of its own cannot be opened. No container outlasts a contradiction. -/
def isLeftAt (c : Container) : ArchiveError → Bool
  | .contradictory => true
  | .malformed shown (.unreadable _) => c.format = .zip || shown = c.shown
  | _ => c.format = .zip

end Container

/-- A damaged member of a 7z container is found out even where its bytes are not asked for, as each member is read
to its end. What is not asked for in a zip container is not read. -/
def Visit.drain (v : Visit) (c : Container) : Visit :=
  if c.format = .sevenZ ∧ v.failure.isNone then v.fail .io else v

/-- Goes into a container that has been put aside, if that went well. The format is told from the name of the copy,
whatever the name in the archive announced. -/
def Visit.enter (v : Visit) (aside : Container) (visit : Container → Visit → Visit) : Visit :=
  if v.failure.isSome then v
  else
    match Format.ofPath? aside.shown with
    | none => v.fail (.unsupportedFormat aside.shown)
    | some format => visit { aside with format } v

mutual

/-- Visits what a container holds. -/
def Content.visit (mode : IndexMode) (c : Container) (content : Content) (v : Visit) : Visit :=
  match content with
  | .plain _ => v.fail (.malformed c.shown (.notFormat c.format))
  | .contradictory format _ =>
    v.fail (if format = c.format then .contradictory else .malformed c.shown (.notFormat c.format))
  | .packed format _ blocks =>
    if format = c.format then visitBlocks mode c blocks v
    else v.fail (.malformed c.shown (.notFormat c.format))

/-- Visits blocks in order, up to a failure at which the container is left. Each block is begun as if nothing had
failed before. -/
def visitBlocks (mode : IndexMode) (c : Container) (blocks : List (List Member)) (v : Visit) : Visit :=
  match blocks with
  | [] => v
  | block :: rest =>
    let after := visitMembers mode c block { v with failure := none }
    match after.failure with
    | none => visitBlocks mode c rest { after with failure := v.failure }
    | some e => if c.isLeftAt e then after else visitBlocks mode c rest after

/-- Visits the members of a block in order, up to the first failure. -/
def visitMembers (mode : IndexMode) (c : Container) (members : List Member) (v : Visit) : Visit :=
  match members with
  | [] => v
  | m :: rest =>
    let after := m.visit mode c v
    if after.failure.isSome then after else visitMembers mode c rest after

/-- Visits a member: folders are left out, files are registered, containers visited in turn. -/
def Member.visit (mode : IndexMode) (c : Container) (m : Member) (v : Visit) : Visit :=
  match m with
  | .unreadable name => v.fail (.malformed c.shown (.unreadable name))
  | .contradictory _ => v.fail .contradictory
  | .intact _ true .. | .damaged _ true _ => v
  | .damaged raw false size =>
    match EntryName.normalize? raw with
    | none => v.fail (.malformed c.shown (.unsafeName raw))
    | some name =>
      match Format.ofName? name with
      | none => (v.file mode c raw name size none).drain c
      | some format =>
        let (number, disk) := v.disk.fresh
        let aside := c.nested number name format
        ({ v with disk }.write aside.path size none).enter aside fun c v =>
          v.fail (.malformed c.shown (.notFormat c.format))
  | .intact raw false size content =>
    match EntryName.normalize? raw with
    | none => v.fail (.malformed c.shown (.unsafeName raw))
    | some name =>
      match Format.ofName? name with
      | none => v.file mode c raw name size (some content)
      | some format =>
        let (number, disk) := v.disk.fresh
        let aside := c.nested number name format
        ({ v with disk }.write aside.path size (some content)).enter aside fun c v =>
          if size = 0 then v.fail (.malformed c.shown (.notFormat c.format)) else content.visit mode c v

end

/-- Indexes the archive at a path. Files stay packed or are written out below `target`, which is
also where containers in the archive are put aside; it is made once the archive is known to be
there. What was written stays after a failure. -/
def Index.build (mode : IndexMode) (source : String) (target : Path) (disk : Disk) :
    Except ArchiveError Index × Disk :=
  match Format.ofPath? source with
  | none => (.error (.unsupportedFormat source), disk)
  | some format =>
    match disk.open? source with
    | none => (.error (.notFound source), disk)
    | some content =>
      match disk.makeFolders? target with
      | none => (.error .io, disk)
      | some made =>
        let chain := [(Path.fileName? source).getD ""]
        let c : Container := ⟨Path.ofText source, source, format, chain, target, disk.clock⟩
        let v := content.visit mode c ⟨made, .new source, none⟩
        match v.failure with
        | some e => (.error e, v.disk)
        | none => (.ok v.index, v.disk)

end ModWeave
