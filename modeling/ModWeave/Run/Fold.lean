import ModWeave.Run.Collect
import ModWeave.Run.Settle

/-! Merging the copies that several mods have of one file: each is merged into what the mods before it
gave. -/
namespace ModWeave

/-- A copy that cannot be parsed, and why. -/
structure Unparsed where
  source : String
  reason : String
deriving DecidableEq, Repr

/-- Reads the tree of a file. Nothing if there is no file, else a tree or the reason why there is
none. -/
def Disk.readTree? (d : Disk) (language : Language) (path : Path) : Option (Except String Tree) :=
  (d.read? path).map fun content =>
    match content.text? with
    | some text => (language.parse text).mapError ParseError.message
    | none => .error "not valid UTF-8"

/-- Reads the trees of copies in order, up to the first that cannot be had. -/
def Disk.readTrees? (d : Disk) (language : Language) :
    List ModFile → Option (Except Unparsed (List (String × Tree)))
  | [] => some (.ok [])
  | copy :: rest => do
    match ← d.readTree? language copy.path with
    | .error reason => return .error ⟨copy.source, reason⟩
    | .ok tree => return (← d.readTrees? language rest).map ((copy.source, tree) :: ·)

/-- What the mods so far gave. -/
structure Merged where
  tree : Tree
  /-- The names of the mods. -/
  label : String
  conflicts : List ConflictReport

/-- How files of one run are merged. -/
structure FileMerger where
  settings : MergeSettings
  /-- The folder for the files of the output. -/
  staging : Path
  /-- The time, in milliseconds, that trees of the base are looked up at. The clock is taken to be read once
  for a run and not again at each tree, so that no tree grows too old in between. `BaseArchive.tree` leaves
  the time of each look-up open, and what is shown of it holds for any times. -/
  now : Nat

namespace FileMerger

/-- Merges the tree of one more mod in. What comes out is parsed again. -/
def mergeMod (m : FileMerger) (file : String) (language : Language) (vanilla : Option Tree)
    (so : Merged) (source : String) (modded : Tree) : FileWork (Except Unparsed Merged) := do
  match diff ⟨file, so.label, source⟩ so.tree modded with
  | none => throw (.merge .outOfRange)
  | some changes =>
    let settled ← settleAll m.settings vanilla changes.conflicts
    match materialize so.tree { changes with conflicts := settled.map (·.1) } with
    | .error e => throw (.merge e)
    | .ok text =>
      match language.parse text with
      | .error e => return .error ⟨source, e.message⟩
      | .ok tree =>
        let reports := settled.map fun (c, automatic) => ConflictReport.ofConflict c automatic
        return .ok ⟨tree, s!"{so.label} + {source}", so.conflicts ++ reports⟩

/-- Merges trees in, in order. -/
def mergeMods (m : FileMerger) (file : String) (language : Language) (vanilla : Option Tree)
    (so : Merged) : List (String × Tree) → FileWork (Except Unparsed Merged)
  | [] => return .ok so
  | (source, modded) :: rest => do
    match ← m.mergeMod file language vanilla so source modded with
    | .error e => return .error e
    | .ok so => m.mergeMods file language vanilla so rest

/-- The tree that the base has of a file. A base file that cannot be used counts as none. -/
def vanilla (m : FileMerger) (file : String) (language : Language) : FileWork (Option Tree) := do
  let s ← get
  let (tree, base, disk) := s.base.tree s.disk m.now file language
  set { s with base, disk }
  return tree.toOption.join

/-- Merges all copies of a file. -/
def mergeCopies (m : FileMerger) (file : String) (language : Language) (copies : List ModFile) :
    FileWork (Except Unparsed Merged) := do
  match ← FileWork.orIo ((← get).disk.readTrees? language copies) with
  | .error e => return .error e
  | .ok [] => throw (.unclaimed file)
  | .ok ((source, tree) :: rest) =>
    let vanilla ← m.vanilla file language
    m.mergeMods file language vanilla ⟨tree, source, []⟩ rest

end FileMerger
end ModWeave
