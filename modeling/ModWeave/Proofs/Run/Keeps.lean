import ModWeave.Proofs.Disk.Sparing
import ModWeave.Proofs.Index.Naming
import ModWeave.Run.MergeFile

/-!
What work on a file leaves alone. Copies of the base archive's files come and go below a folder of their
own; elsewhere a file changes only where it is written.
-/
namespace ModWeave

namespace Disk

variable {d d' : Disk} {content : Content} {source target q : Path}

theorem copy?_eq (d : Disk) (source target : Path) :
    d.copy? source target = (d.read? source).bind (d.put? target) := rfl

theorem writeText?_eq (d : Disk) (target : Path) (text : List Char) :
    d.writeText? target text = d.put? target (.ofText (String.ofList text)) := rfl

/-- Putting a file somewhere, and folders on the way to it, changes no other file. -/
theorem read?_put? (h : d.put? target content = some d') (q : Path) :
    d'.read? q = if q = target then some content else d.read? q := by
  obtain ⟨d₁, hmade, hwritten⟩ := Option.bind_eq_some_iff.1 h
  rw [read?_write? hwritten, read?_makeFolders? hmade]

theorem read?_copy? (h : d.copy? source target = some d') :
    ∃ content, d.read? source = some content ∧
      ∀ q, d'.read? q = if q = target then some content else d.read? q := by
  obtain ⟨content, hread, hput⟩ := Option.bind_eq_some_iff.1 h
  exact ⟨content, hread, read?_put? hput⟩

theorem read?_writeText? {text : List Char} (h : d.writeText? target text = some d') (q : Path) :
    d'.read? q = if q = target then some (.ofText (String.ofList text)) else d.read? q := read?_put? h q

end Disk

namespace ContentCache

variable {d d' : Disk} {folder path : Path} {bytes : ByteArray}

/-- Keeping a copy touches nothing outside of the folder for copies, and no other copy but to remove one. -/
theorem spares_store? (h : store? d path bytes = some d') (hpath : folder <+: path.dropLast) :
    d.Spares [] folder d' ∧ ∀ q, q ≠ path → d.read? q = none → d'.read? q = none := by
  simp only [store?, Option.bind_eq_bind, Option.bind_eq_some_iff] at h
  obtain ⟨d₁, hmade, d₂, hdraft, hmoved⟩ := h
  have hbelow (name : String) : folder <+: path.dropLast ++ [name] :=
    hpath.trans (List.prefix_append _ _)
  constructor
  · have hfresh : d.Spares [] folder d₁.fresh.2 :=
      (Disk.spares_makeFolders? hmade hpath).trans ⟨rfl, fun _ _ _ => .inl rfl⟩
    exact (hfresh.trans (Disk.spares_write? hdraft (hbelow _))).trans
      (Disk.spares_move? hmoved (hbelow _) (hpath.trans (List.dropLast_prefix path)))
  · intro q hq hnone
    rw [Disk.read?_move?_of_ne hmoved hq]
    split
    · rfl
    · next hne =>
      rw [Disk.read?_write? hdraft, if_neg hne, ← hnone, ← Disk.read?_makeFolders? hmade q]
      exact Disk.read?_eq_of_item?_eq rfl

theorem copyPath_below (c : ContentCache) (name : String) : c.folder <+: (c.copyPath name).dropLast := by
  rw [copyPath, List.dropLast_append_of_ne_nil (EntryName.segments_ne_nil name)]
  exact List.prefix_append _ _

theorem copyPath_injective (c : ContentCache) : Function.Injective c.copyPath := fun _ _ h =>
  EntryName.segments_injective (List.append_cancel_left h)

/-- Looking an entry up touches nothing outside of the folder for copies, and keeps no copy of another one. -/
theorem keeps_bytes (c : ContentCache) (d : Disk) (e : Entry) :
    (c.bytes d e).2.1.folder = c.folder ∧ d.Spares [] c.folder (c.bytes d e).2.2 ∧
      ∀ name, name ≠ e.name → d.read? (c.copyPath name) = none →
        (c.bytes d e).2.2.read? (c.copyPath name) = none := by
  unfold bytes
  dsimp only
  split
  · exact ⟨rfl, .refl .., fun _ _ => id⟩
  · split
    · exact ⟨rfl, .refl .., fun _ _ => id⟩
    · split
      · exact ⟨rfl, .refl .., fun _ _ => id⟩
      · split
        · split
          · next hstored =>
            obtain ⟨hspares, hcopies⟩ := spares_store? hstored (c.copyPath_below e.name)
            exact ⟨rfl, hspares, fun name hne => hcopies _ fun h => hne (c.copyPath_injective h)⟩
          · exact ⟨rfl, .refl .., fun _ _ => id⟩
        · exact ⟨rfl, .refl .., fun _ _ => id⟩

end ContentCache

/-- Looking a tree of the base archive up touches nothing outside of the folder for copies. -/
theorem BaseArchive.keeps_tree (b : BaseArchive) (d : Disk) (now : Nat) (name : String) (language : Language) :
    (b.tree d now name language).2.1.index = b.index ∧
      (b.tree d now name language).2.1.content.folder = b.content.folder ∧
      d.Spares [] b.content.folder (b.tree d now name language).2.2 := by
  unfold tree
  split
  · exact ⟨rfl, rfl, .refl ..⟩
  · next entry _ =>
    split
    · exact ⟨rfl, rfl, .refl ..⟩
    · obtain ⟨hfolder, hspares, -⟩ := b.content.keeps_bytes d entry
      exact ⟨rfl, hfolder, hspares⟩

/-- A later stage of a run, which has kept all files but some and those below the folder for copies. -/
structure Progress.KeepsBut (paths : List Path) (s s' : Progress) : Prop where
  folder : s'.base.content.folder = s.base.content.folder
  read? : ∀ q, q ∉ paths → ¬ s.base.content.folder <+: q → s'.disk.read? q = s.disk.read? q

namespace Progress.KeepsBut

variable {paths paths' : List Path} {s s' s'' : Progress}

theorem refl (s : Progress) : KeepsBut [] s s := ⟨rfl, fun _ _ _ => rfl⟩

theorem mono (h : KeepsBut paths s s') (hsub : paths ⊆ paths') : KeepsBut paths' s s' :=
  ⟨h.folder, fun q hq => h.read? q fun hp => hq (hsub hp)⟩

theorem trans (h : KeepsBut paths s s') (h' : KeepsBut paths' s' s'') : KeepsBut (paths ++ paths') s s'' := by
  refine ⟨h'.folder.trans h.folder, fun q hq hfolder => ?_⟩
  rw [List.mem_append, not_or] at hq
  rw [h'.read? q hq.2 (by rwa [h.folder]), h.read? q hq.1 hfolder]

/-- The report has no part in it. -/
theorem of_report {report : Report} (h : KeepsBut paths { s with report } s') : KeepsBut paths s s' :=
  ⟨h.folder, h.read?⟩

theorem of_eq (hbase : s'.base = s.base) (hdisk : s'.disk = s.disk) : KeepsBut [] s s' :=
  ⟨by rw [hbase], fun _ _ _ => by rw [hdisk]⟩

end Progress.KeepsBut

end ModWeave
