import Mathlib.Data.List.Basic
import Mathlib.Data.List.Infix
import ModWeave.Disk
import ModWeave.Proofs.Lists

/-!
Writing to a disk. Where the way to a path is open, the missing folders on it are made and the file
is put at its end; nothing else on the disk changes.
-/
namespace ModWeave

namespace Path

theorem above_concat {path : Path} (h : path ≠ []) (name : String) :
    above (path ++ [name]) = above path ++ [path] := by
  induction path with
  | nil => exact absurd rfl h
  | cons a rest ih =>
    cases rest with
    | nil => rfl
    | cons b rest =>
      have hrest := ih (List.cons_ne_nil b rest)
      simp only [List.cons_append, above] at hrest ⊢
      rw [hrest]
      simp

theorem not_concat_isPrefix (path : Path) (name : String) : ¬(path ++ [name]) <+: path :=
  fun h => Nat.not_succ_le_self path.length (by simpa using h.length_le)

theorem isPrefix_dropLast_iff {path q : Path} (h : path ≠ []) :
    q <+: path.dropLast ↔ q <+: path ∧ q ≠ path := by
  obtain ⟨front, last, rfl⟩ := (List.eq_nil_or_concat' path).resolve_left h
  rw [List.dropLast_concat, List.prefix_concat_iff]
  constructor
  · intro hq
    refine ⟨.inr hq, ?_⟩
    rintro rfl
    exact not_concat_isPrefix front last hq
  · rintro ⟨rfl | hq, hne⟩
    · exact absurd rfl hne
    · exact hq

end Path

namespace Disk

variable {d : Disk} {path q : Path}

@[simp] theorem item?_nil (d : Disk) : d.item? [] = some .folder := rfl

theorem isFolder_iff : d.isFolder path = true ↔ d.item? path = some .folder := by
  unfold isFolder
  split <;> simp_all

theorem read?_eq_some_iff {content : Content} :
    d.read? path = some content ↔ d.item? path = some (.file content) := by
  unfold read?
  split <;> simp_all

theorem item?_insert {item : Item} (h : d.item? path ≠ some .folder) (q : Path) :
    ({ d with items := d.items.insert path item } : Disk).item? q
      = if q = path then some item else d.item? q := by
  have hanchor : path.isAnchor = false := by
    by_contra hp
    exact h (if_pos (by simpa using hp))
  unfold item?
  rw [Std.TreeMap.getElem?_insert]
  by_cases hq : q = path
  · simp [hq, hanchor]
  · simp [hq, Ne.symm hq]

theorem makeFolders?_concat (d : Disk) (path : Path) (name : String) :
    d.makeFolders? (path ++ [name])
      = (d.makeFolders? path).bind fun d => d.makeFolder? (path ++ [name]) := by
  rcases eq_or_ne path [] with rfl | hpath
  · simp [makeFolders?, Path.above, makeFolder?]
  · simp [makeFolders?, Path.above_concat hpath, Option.bind_assoc]

theorem has_eq_false_iff : d.has path = false ↔ d.item? path = none := by
  simp [has]

/-- Whether a folder stands at a path, or nothing and one can be made. -/
def IsFree (d : Disk) (path : Path) : Prop :=
  d.isFolder path = true ∨ d.has path = false ∧ path.isValid = true ∧ d.refuses path = false
deriving Decidable

/-- Whether the way to a path is open, up to a folder at its end. -/
def IsOpen (d : Disk) (path : Path) : Prop := ∀ q, q <+: path → d.IsFree q

instance (d : Disk) (path : Path) : Decidable (d.IsOpen path) :=
  decidable_of_iff (∀ q ∈ List.inits path, d.IsFree q) (by simp [IsOpen])

theorem isFree_iff : d.IsFree path ↔
    d.item? path = some .folder ∨ d.item? path = none ∧ path.isValid = true ∧ d.refuses path = false := by
  rw [IsFree, isFolder_iff, has_eq_false_iff]

theorem IsFree.ne_file (h : d.IsFree path) (content : Content) :
    d.item? path ≠ some (.file content) := by
  obtain h | ⟨h, -, -⟩ := isFree_iff.1 h <;> simp [h]

theorem IsFree.of_item?_eq {d' : Disk} (h : d.IsFree path) (hitem : d'.item? path = d.item? path)
    (hrefuses : d'.refuses = d.refuses) : d'.IsFree path := by
  rw [isFree_iff, hitem, hrefuses]
  exact isFree_iff.1 h

theorem makeFolders?_of_isOpen (h : d.IsOpen path) :
    ∃ d', d.makeFolders? path = some d' ∧ d'.serial = d.serial ∧ d'.refuses = d.refuses ∧
      ∀ q, d'.item? q = if q <+: path then some .folder else d.item? q := by
  induction path using List.reverseRecOn with
  | nil =>
    refine ⟨d, rfl, rfl, rfl, fun q => ?_⟩
    split
    · next hq => rw [List.prefix_nil.1 hq, item?_nil]
    · rfl
  | append_singleton front name ih =>
    obtain ⟨d₁, hmade, hserial, hrefuses, hitem⟩ :=
      ih fun q hq => h q (hq.trans (List.prefix_append front [name]))
    have hnext : d₁.item? (front ++ [name]) = d.item? (front ++ [name]) := by
      rw [hitem, if_neg (Path.not_concat_isPrefix front name)]
    obtain hfolder | ⟨hnone, hvalid, hrefused⟩ := isFree_iff.1 (h _ List.prefix_rfl)
    · refine ⟨d₁, ?_, hserial, hrefuses, fun q => ?_⟩
      · simp [makeFolders?_concat, hmade, makeFolder?, hnext, hfolder]
      · by_cases hq : q = front ++ [name]
        · simp [hq, hnext, hfolder]
        · simp [hitem, List.prefix_concat_iff, hq]
    · have haccepts : d₁.accepts (front ++ [name]) = true := by
        simp [accepts, hvalid, hrefuses, hrefused, isFolder_iff, hitem]
      refine ⟨{ d₁ with items := d₁.items.insert (front ++ [name]) .folder }, ?_, hserial,
        hrefuses, fun q => ?_⟩
      · simp [makeFolders?_concat, hmade, makeFolder?, hnext, hnone, haccepts]
      · rw [item?_insert (by simp [hnext, hnone]), hitem]
        by_cases hq : q = front ++ [name] <;> simp [List.prefix_concat_iff, hq]

/-- Folders are only made on an open way. -/
theorem isOpen_of_makeFolders? {d' : Disk} (h : d.makeFolders? path = some d') : d.IsOpen path := by
  induction path using List.reverseRecOn generalizing d' with
  | nil => exact fun q hq => isFree_iff.2 (.inl (by rw [List.prefix_nil.1 hq, item?_nil]))
  | append_singleton front name ih =>
    rw [makeFolders?_concat] at h
    obtain ⟨d₁, hmade, hnext⟩ := Option.bind_eq_some_iff.1 h
    have hfront := ih hmade
    obtain ⟨d₂, hmade', -, hrefuses, hitem⟩ := makeFolders?_of_isOpen hfront
    obtain rfl := Option.some.inj (hmade'.symm.trans hmade)
    have hend : d₂.item? (front ++ [name]) = d.item? (front ++ [name]) := by
      rw [hitem, if_neg (Path.not_concat_isPrefix front name)]
    intro q hq
    obtain rfl | hq := List.prefix_concat_iff.1 hq
    · rw [isFree_iff, ← hend, ← hrefuses]
      unfold makeFolder? at hnext
      split at hnext
      · next hfolder => exact .inl hfolder
      · cases hnext
      · next hnone =>
        split at hnext
        · next haccepts =>
          simp only [accepts, Bool.and_eq_true, Bool.not_eq_true'] at haccepts
          exact .inr ⟨hnone, haccepts.1.1, haccepts.1.2⟩
        · cases hnext
    · exact hfront q hq

/-- A disk with a file at a path, and folders on the way to it, that is else as it was. -/
structure Puts (d : Disk) (path : Path) (content : Content) (d' : Disk) : Prop where
  serial : d'.serial = d.serial
  refuses : d'.refuses = d.refuses
  item? : ∀ q, d'.item? q =
    if q = path then some (.file content) else if q <+: path then some .folder else d.item? q

/-- Whether a file can be put at a path. -/
structure HasSpot (d : Disk) (path : Path) : Prop where
  way : d.IsOpen path.dropLast
  noFolder : d.isFolder path = false
  isValid : path.isValid = true
  takes : d.refuses path = false

instance (d : Disk) (path : Path) : Decidable (d.HasSpot path) :=
  decidable_of_iff (d.IsOpen path.dropLast ∧ d.isFolder path = false ∧ path.isValid = true ∧
      d.refuses path = false)
    ⟨fun ⟨way, noFolder, isValid, takes⟩ => ⟨way, noFolder, isValid, takes⟩,
      fun h => ⟨h.way, h.noFolder, h.isValid, h.takes⟩⟩

theorem isFolder_eq_false_iff : d.isFolder path = false ↔ d.item? path ≠ some .folder := by
  rw [Bool.eq_false_iff, ne_eq, isFolder_iff]

theorem HasSpot.ne_nil (h : d.HasSpot path) : path ≠ [] := by
  rintro rfl
  exact isFolder_eq_false_iff.1 h.noFolder rfl

theorem HasSpot.isFree (h : d.HasSpot path) (hq : q <+: path) (hne : q ≠ path) : d.IsFree q :=
  h.way q ((Path.isPrefix_dropLast_iff h.ne_nil).2 ⟨hq, hne⟩)

theorem HasSpot.puts (h : d.HasSpot path) (content : Content) :
    ∃ d₁ d', d.makeFolders? path.dropLast = some d₁ ∧ d₁.write? path content = some d' ∧
      d.Puts path content d' := by
  obtain ⟨d₁, hmade, hserial, hrefuses, hitem⟩ := makeFolders?_of_isOpen h.way
  have hend : d₁.item? path = d.item? path := by
    rw [hitem, if_neg]
    exact fun hp => ((Path.isPrefix_dropLast_iff h.ne_nil).1 hp).2 rfl
  have hspot : d₁.isFolder path = false := by
    rw [isFolder_eq_false_iff, hend]
    exact isFolder_eq_false_iff.1 h.noFolder
  have haccepts : d₁.accepts path = true := by
    simp [accepts, h.isValid, hrefuses, h.takes, isFolder_iff, hitem]
  refine ⟨d₁, { d₁ with items := d₁.items.insert path (.file content) }, hmade, ?_, hserial,
    hrefuses, fun q => ?_⟩
  · simp [write?, hspot, haccepts]
  · rw [item?_insert (isFolder_eq_false_iff.1 hspot), hitem]
    by_cases hq : q = path <;> simp [Path.isPrefix_dropLast_iff h.ne_nil, hq]

/-- A file is only put where it has a spot. -/
theorem hasSpot_of_write? {d₁ d' : Disk} {content : Content} (hmade : d.makeFolders? path.dropLast = some d₁)
    (h : d₁.write? path content = some d') : d.HasSpot path := by
  have hway := isOpen_of_makeFolders? hmade
  obtain ⟨d₂, hmade', -, hrefuses, hitem⟩ := makeFolders?_of_isOpen hway
  obtain rfl := Option.some.inj (hmade'.symm.trans hmade)
  unfold write? at h
  split at h
  · cases h
  · next hfolder =>
    split at h
    · next haccepts =>
      simp only [accepts, Bool.and_eq_true, Bool.not_eq_true', hrefuses] at haccepts
      refine ⟨hway, ?_, haccepts.1.1, haccepts.1.2⟩
      have hne : path ≠ [] := by
        rintro rfl
        exact hfolder rfl
      rw [isFolder_iff, hitem, if_neg fun hp => ((Path.isPrefix_dropLast_iff hne).1 hp).2 rfl] at hfolder
      exact isFolder_eq_false_iff.2 hfolder
    · cases h

theorem read?_eq_of_item?_eq {d' : Disk} (h : d'.item? q = d.item? q) : d'.read? q = d.read? q := by
  rw [read?, h, read?]

/-- Making folders changes no file. -/
theorem read?_makeFolders? {d' : Disk} (h : d.makeFolders? path = some d') (q : Path) :
    d'.read? q = d.read? q := by
  have hway := isOpen_of_makeFolders? h
  obtain ⟨d₁, hmade, -, -, hitem⟩ := makeFolders?_of_isOpen hway
  obtain rfl := Option.some.inj (hmade.symm.trans h)
  by_cases hq : q <+: path
  · have hfile := (hway q hq).ne_file
    refine Option.ext fun content => ?_
    simp [read?_eq_some_iff, hitem, hq, hfile content]
  · exact read?_eq_of_item?_eq (by rw [hitem, if_neg hq])

/-- A file that is written is there afterwards, and no other file changes. -/
theorem read?_write? {d' : Disk} {content : Content} (h : d.write? path content = some d') (q : Path) :
    d'.read? q = if q = path then some content else d.read? q := by
  unfold write? at h
  split at h
  · cases h
  · next hfolder =>
    split at h
    · obtain rfl := Option.some.inj h
      have hitem := @item?_insert d path (.file content) (fun h => hfolder (isFolder_iff.2 h)) q
      by_cases hq : q = path
      · rw [if_pos hq, read?_eq_some_iff, hitem, if_pos hq]
      · rw [if_neg hq]
        exact read?_eq_of_item?_eq (by rw [hitem, if_neg hq])
    · cases h

theorem read?_remove? {d' : Disk} (h : d.remove? path = some d') (hq : q ≠ path) :
    d'.read? q = d.read? q := by
  unfold remove? at h
  split at h
  · obtain rfl := Option.some.inj h
    refine read?_eq_of_item?_eq ?_
    simp [item?, Std.TreeMap.getElem?_erase, Ne.symm hq]
  · cases h

/-- Moving a file changes no file but the two. -/
theorem read?_move? {d' : Disk} {source target : Path} (h : d.move? source target = some d')
    (hsource : q ≠ source) (htarget : q ≠ target) : d'.read? q = d.read? q := by
  simp only [move?, Option.bind_eq_bind, Option.bind_eq_some_iff] at h
  obtain ⟨content, -, d₁, hwritten, h⟩ := h
  have hread := read?_write? hwritten q
  rw [if_neg htarget] at hread
  split at h
  · obtain rfl := Option.some.inj h
    exact hread
  · rw [read?_remove? h hsource, hread]

theorem isFolder_insert {path q : Path} {item : Item} (h : d.isFolder path = false) (hq : d.isFolder q = true) :
    isFolder { d with items := d.items.insert path item } q = true := by
  rw [isFolder_iff] at hq ⊢
  rw [item?_insert (isFolder_eq_false_iff.1 h), if_neg]
  · exact hq
  · rintro rfl
    exact isFolder_eq_false_iff.1 h hq

theorem isFolder_makeFolder? {path : Path} (h : d.makeFolder? path = some d') :
    d'.isFolder path = true ∧ ∀ q, d.isFolder q = true → d'.isFolder q = true := by
  unfold makeFolder? at h
  split at h
  · next hitem =>
    cases h
    exact ⟨isFolder_iff.2 hitem, fun _ => id⟩
  · cases h
  · next hitem =>
    split at h
    · cases h
      have hnone : d.item? path ≠ some .folder := by simp [hitem]
      refine ⟨isFolder_iff.2 ?_, fun q => isFolder_insert (isFolder_eq_false_iff.2 hnone)⟩
      rw [item?_insert hnone, if_pos rfl]
    · cases h

/-- Folders that are made are there, and so are those that were. -/
theorem isFolder_foldlM {paths : List Path} (h : paths.foldlM makeFolder? d = some d') :
    (∀ q, d.isFolder q = true → d'.isFolder q = true) ∧ ∀ q ∈ paths, d'.isFolder q = true := by
  induction paths generalizing d with
  | nil =>
    cases h
    simp
  | cons path rest ih =>
    rw [List.foldlM_cons] at h
    obtain ⟨d₁, hmade, hrest⟩ := Option.bind_eq_some_iff.1 h
    obtain ⟨hthere, hkeeps⟩ := isFolder_makeFolder? hmade
    obtain ⟨hkeeps', hall⟩ := ih hrest
    refine ⟨fun q hq => hkeeps' q (hkeeps q hq), ?_⟩
    rw [List.forall_mem_cons]
    exact ⟨hkeeps' path hthere, hall⟩

/-- Whether there is a spot for each of some files, and for all of them at once: no file is on the
way to another. -/
structure Hosts (d : Disk) (paths : List Path) : Prop where
  spots : ∀ p ∈ paths, d.HasSpot p
  apart : ∀ p ∈ paths, ∀ q ∈ paths, p <+: q → p = q

instance (d : Disk) (paths : List Path) : Decidable (d.Hosts paths) :=
  decidable_of_iff ((∀ p ∈ paths, d.HasSpot p) ∧ ∀ p ∈ paths, ∀ q ∈ paths, p <+: q → p = q)
    ⟨fun ⟨spots, apart⟩ => ⟨spots, apart⟩, fun h => ⟨h.spots, h.apart⟩⟩

theorem Hosts.mono {paths paths' : List Path} (h : d.Hosts paths) (hsub : paths' ⊆ paths) :
    d.Hosts paths' :=
  ⟨fun p hp => h.spots p (hsub hp), fun p hp q hq => h.apart p (hsub hp) q (hsub hq)⟩

/-- A disk with files put on it one after the other, that is else as it was. -/
structure Gets (d : Disk) (writes : List (Path × Content)) (d' : Disk) : Prop where
  refuses : d'.refuses = d.refuses
  item? : ∀ q, d'.item? q =
    match writes.findRev? (·.1 = q) with
    | some w => some (.file w.2)
    | none => if ∃ w ∈ writes, q <+: w.1 then some .folder else d.item? q

variable {d' : Disk} {writes : List (Path × Content)}

theorem Gets.refl (d : Disk) : d.Gets [] d where
  refuses := rfl
  item? q := by simp [List.findRev?]

/-- On the way to a further file there are still only folders, and it finds its spot. -/
theorem Gets.hasSpot (h : d.Gets writes d') (hhosts : d.Hosts (writes.map Prod.fst ++ [path])) :
    d'.HasSpot path := by
  have hpath : path ∈ writes.map Prod.fst ++ [path] := by simp
  have hwritten {w : Path × Content} (hw : w ∈ writes) : w.1 ∈ writes.map Prod.fst ++ [path] :=
    List.mem_append_left _ (List.mem_map_of_mem hw)
  have hspot := hhosts.spots path hpath
  refine ⟨fun q hq => ?_, ?_, hspot.isValid, h.refuses ▸ hspot.takes⟩
  · obtain ⟨hbefore, hne⟩ := (Path.isPrefix_dropLast_iff hspot.ne_nil).1 hq
    obtain hlast | ⟨w, hlast⟩ := (writes.findRev? (·.1 = q)).eq_none_or_eq_some
    · have hitem := h.item? q
      simp only [hlast] at hitem
      split at hitem
      · exact isFree_iff.2 (.inl hitem)
      · exact (hspot.way q hq).of_item?_eq hitem h.refuses
    · obtain rfl : w.1 = q := by simpa using (findRev?_eq_some_iff.1 hlast).1
      exact absurd (hhosts.apart _ (hwritten (mem_of_findRev?_eq_some hlast)) _ hpath hbefore) hne
  · rw [isFolder_eq_false_iff, h.item? path]
    split
    · simp
    · next hlast =>
      rw [if_neg]
      · exact isFolder_eq_false_iff.1 hspot.noFolder
      · rintro ⟨w, hw, hbelow⟩
        have heq := hhosts.apart _ hpath _ (hwritten hw) hbelow
        simpa [heq] using findRev?_eq_none_iff.1 hlast w hw

theorem Gets.puts {d'' : Disk} {content : Content} (h : d.Gets writes d') (hspot : d'.HasSpot path)
    (hputs : d'.Puts path content d'') : d.Gets (writes ++ [(path, content)]) d'' where
  refuses := hputs.refuses.trans h.refuses
  item? q := by
    rw [hputs.item?, h.item? q, findRev?_concat]
    by_cases hq : q = path
    · simp [hq]
    have hother : decide (path = q) = false := decide_eq_false (Ne.symm hq)
    obtain hlast | ⟨w, hlast⟩ := (writes.findRev? (·.1 = q)).eq_none_or_eq_some
    · simp only [hq, hother, hlast, Bool.false_eq_true, ↓reduceIte, List.mem_append,
        List.mem_singleton, or_and_right, exists_or, exists_eq_left]
      by_cases hbefore : q <+: path <;> simp only [hbefore, or_true, or_false, ↓reduceIte]
    · -- what is a file already is not on the way
      have hbefore : ¬q <+: path := fun hbefore =>
        (hspot.isFree hbefore hq).ne_file w.2 (by rw [h.item?, hlast])
      simp only [hq, hbefore, hother, hlast, Bool.false_eq_true, ↓reduceIte]

/-- A file stays that nothing is written over. -/
theorem Gets.read?_of_notMem {content : Content} (h : d.Gets writes d')
    (hhosts : d.Hosts (writes.map Prod.fst)) (hread : d.read? path = some content)
    (hpath : path ∉ writes.map Prod.fst) : d'.read? path = some content := by
  rw [read?_eq_some_iff] at hread ⊢
  have hlast : writes.findRev? (·.1 = path) = none := by
    refine findRev?_eq_none_iff.2 fun w hw => decide_eq_false ?_
    rintro rfl
    exact hpath (List.mem_map_of_mem hw)
  rw [h.item?, hlast, if_neg]
  · exact hread
  · rintro ⟨w, hw, hbelow⟩
    have hmem : w.1 ∈ writes.map Prod.fst := List.mem_map_of_mem hw
    exact ((hhosts.spots _ hmem).isFree hbelow fun he => hpath (he ▸ hmem)).ne_file content hread

/-- Once a folder is made there is still a spot for each file below it. -/
theorem Hosts.makeFolders? {paths : List Path} {folder : Path} (h : d.Hosts paths)
    (hbelow : ∀ p ∈ paths, folder <+: p ∧ p ≠ folder) (hrefuses : d'.refuses = d.refuses)
    (hitem : ∀ q, d'.item? q = if q <+: folder then some .folder else d.item? q) : d'.Hosts paths where
  apart := h.apart
  spots p hp := by
    obtain ⟨hfolder, hne⟩ := hbelow p hp
    have hspot := h.spots p hp
    refine ⟨fun q hq => ?_, ?_, hspot.isValid, hrefuses ▸ hspot.takes⟩
    · have hq' := hitem q
      split at hq'
      · exact isFree_iff.2 (.inl hq')
      · exact (hspot.way q hq).of_item?_eq hq' hrefuses
    · rw [isFolder_eq_false_iff, hitem, if_neg]
      · exact isFolder_eq_false_iff.1 hspot.noFolder
      · exact fun hp' => hne (hp'.eq_of_length_le hfolder.length_le)

end Disk
end ModWeave
