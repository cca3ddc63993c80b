import ModWeave.Proofs.Disk.Sparing

/-!
Disks that refuse more. Where only some paths may be written to, a write to one of those goes as it went before, and
leaves a disk that refuses as much; so work that does just the same on such a disk writes nowhere else.
-/
namespace ModWeave

/-- The paths above a path are its beginnings. -/
theorem Path.isPrefix_of_mem_above {path q : Path} (h : q ∈ path.above ++ [path]) : q <+: path := by
  induction path using List.reverseRecOn with
  | nil => simpa [above] using h
  | append_singleton front name ih =>
    obtain rfl | hne := eq_or_ne front []
    · obtain rfl : q = [name] := by simpa [above] using h
      exact List.prefix_rfl
    · rw [above_concat hne, List.mem_append, List.mem_singleton] at h
      obtain h | rfl := h
      · exact (ih h).trans (List.prefix_append _ _)
      · exact List.prefix_rfl

namespace Disk

/-- The disk with all but some paths refused as well. -/
def confine (d : Disk) (allowed : Path → Bool) : Disk := { d with refuses := fun p => d.refuses p || !allowed p }

variable {d : Disk} {allowed : Path → Bool} {path source : Path}

@[simp] theorem item?_confine (d : Disk) (allowed : Path → Bool) (q : Path) :
    (d.confine allowed).item? q = d.item? q := rfl

@[simp] theorem isFolder_confine (d : Disk) (allowed : Path → Bool) (q : Path) :
    (d.confine allowed).isFolder q = d.isFolder q := rfl

@[simp] theorem read?_confine (d : Disk) (allowed : Path → Bool) (q : Path) :
    (d.confine allowed).read? q = d.read? q := rfl

@[simp] theorem open?_confine (d : Disk) (allowed : Path → Bool) (text : String) :
    (d.confine allowed).open? text = d.open? text := rfl

@[simp] theorem fresh_confine (d : Disk) (allowed : Path → Bool) :
    (d.confine allowed).fresh = (d.fresh.1, d.fresh.2.confine allowed) := rfl

theorem accepts_confine (d : Disk) (h : allowed path = true) : (d.confine allowed).accepts path = d.accepts path := by
  simp [accepts, confine, h, isFolder, item?]

theorem makeFolder?_confine (d : Disk) (h : allowed path = true) :
    (d.confine allowed).makeFolder? path = (d.makeFolder? path).map (·.confine allowed) := by
  unfold makeFolder?
  rw [item?_confine, accepts_confine d h]
  split
  · rfl
  · rfl
  · split <;> rfl

theorem makeFolders?_confine (d : Disk) (h : ∀ q, q <+: path → allowed q = true) :
    (d.confine allowed).makeFolders? path = (d.makeFolders? path).map (·.confine allowed) := by
  have hways (paths : List Path) (d : Disk) (hpaths : ∀ q ∈ paths, allowed q = true) :
      paths.foldlM makeFolder? (d.confine allowed) = (paths.foldlM makeFolder? d).map (·.confine allowed) := by
    induction paths generalizing d with
    | nil => rfl
    | cons p paths ih =>
      rw [List.forall_mem_cons] at hpaths
      rw [List.foldlM_cons, List.foldlM_cons, makeFolder?_confine d hpaths.1]
      cases d.makeFolder? p with
      | none => rfl
      | some d' => exact ih d' hpaths.2
  exact hways _ d fun q hq => h q (Path.isPrefix_of_mem_above hq)

theorem write?_confine (d : Disk) (h : allowed path = true) (content : Content) :
    (d.confine allowed).write? path content = (d.write? path content).map (·.confine allowed) := by
  unfold write?
  rw [isFolder_confine, accepts_confine d h]
  split
  · rfl
  · split <;> rfl

theorem remove?_confine (d : Disk) (allowed : Path → Bool) (path : Path) :
    (d.confine allowed).remove? path = (d.remove? path).map (·.confine allowed) := by
  unfold remove?
  rw [show (d.confine allowed).isFile path = d.isFile path from rfl]
  split <;> rfl

theorem move?_confine (d : Disk) (h : allowed path = true) :
    (d.confine allowed).move? source path = (d.move? source path).map (·.confine allowed) := by
  simp only [move?, read?_confine, Option.bind_eq_bind]
  cases d.read? source with
  | none => rfl
  | some content =>
    rw [Option.bind_some, Option.bind_some, write?_confine d h]
    cases d.write? path content with
    | none => rfl
    | some d' =>
      rw [Option.map_some, Option.bind_some, Option.bind_some]
      split
      · rfl
      · exact remove?_confine d' allowed source

end Disk
end ModWeave
