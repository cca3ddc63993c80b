import ModWeave.Cache.Content
import ModWeave.Cache.Recent
import ModWeave.Index.Build
import ModWeave.Run.Failure
import ModWeave.Settings

/-!
The base archive: the unmodified game that all mods are compared with. Its files stay packed; texts
come through a cache of copies, trees through a cache that knows them by their name alone.
-/
namespace ModWeave

structure BaseArchive where
  index : Index
  content : ContentCache
  trees : RecentCache Tree

namespace BaseArchive

/-- Loads the archive at a path. Containers in it and copies of its files are kept below `folder`. -/
def load (path : String) (folder : Path) (cache : CacheSettings) (d : Disk) :
    Except ArchiveError BaseArchive × Disk :=
  if (d.open? path).isSome then
    let (index, d) := Index.build .index path (folder ++ ["nested"]) d
    (index.map fun index =>
      ⟨index, .new (folder ++ ["content"]), .new cache.maxTrees (cache.lifetime * 1000)⟩, d)
  else (.error (.notFound path), d)

/-- The text of a file, nothing for one that the base does not have. -/
def text (b : BaseArchive) (d : Disk) (name : String) :
    Except BaseError (Option (List Char)) × BaseArchive × Disk :=
  match b.index.get? name with
  | none => (.ok none, b, d)
  | some entry =>
    let (text, content, d) := b.content.text d entry
    ((text.map some).mapError (.reading name), { b with content }, d)

/-- The tree of a file at some time in milliseconds, nothing for a file that the base does not have.
A tree that is still there is given in whatever language it was read. -/
def tree (b : BaseArchive) (d : Disk) (now : Nat) (name : String) (language : Language) :
    Except BaseError (Option Tree) × BaseArchive × Disk :=
  match b.index.get? name with
  | none => (.ok none, b, d)
  | some entry =>
    match b.trees.get? now name with
    | some tree => (.ok (some tree), b, d)
    | none =>
      let (text, content, d) := b.content.text d entry
      let parsed : Except BaseError Tree := do
        let text ← text.mapError .noText
        (language.parse text).mapError (.parsing name)
      let (tree, trees) := b.trees.getOrCompute now name parsed
      (tree.map some, { b with content, trees }, d)

end BaseArchive
end ModWeave
