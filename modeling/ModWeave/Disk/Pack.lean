import ModWeave.Archive.Error
import ModWeave.Archive.Pack
import ModWeave.Disk

/-! Packing folders. -/
namespace ModWeave.Disk

/-- The files below a folder as members of a container: their names have slashes between the folders
they are in, and they come in the order of those. -/
def membersBelow (d : Disk) (folder : Path) : List NamedContent :=
  (d.filesBelow folder).map fun (path, content) => (path.text, content)

/-- Packs all files below a folder into a container; its format is the one that its name announces.
A folder that is not there fails, a file in its place is packed under no name. -/
def pack (d : Disk) (folder : Path) (output : String) : Except ArchiveError Disk :=
  match Format.ofPath? output with
  | none => .error (.unsupportedFormat output)
  | some format =>
    let members? := match d.item? folder with
      | some .folder => some (d.membersBelow folder)
      | some (.file content) => some [("", content)]
      | none => none
    let disk? := do
      let members ← members?
      let d ← d.makeFoldersTo? output
      if Path.leadsToFolder output then none
      else d.write? (Path.ofText output) (Content.pack format members)
    match disk? with
    | some d => .ok d
    | none => .error .io

end ModWeave.Disk
