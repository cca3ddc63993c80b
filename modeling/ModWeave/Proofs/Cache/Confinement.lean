import ModWeave.Cache.Content
import ModWeave.Proofs.Index.Confinement

/-!
Where the cache of copies writes. A copy of an entry, and the draft it is written as first, have paths strictly below
the folder for copies.
-/
namespace ModWeave

theorem Disk.isDigit_of_mem_serialText {digits number : Nat} {c : Char}
    (h : c ∈ (serialText digits number).toList) : c.isDigit = true := by
  rw [serialText, String.toList_ofList, List.leftpad, List.mem_append] at h
  obtain h | h := h
  · rw [List.eq_of_mem_replicate h]
    rfl
  · exact Nat.isDigit_of_mem_toDigits (by decide) (by decide) h

namespace ContentCache

variable {c : ContentCache} {d d' : Disk} {folder path : Path} {raw name : String} {e : Entry} {copy : ByteArray}

/-- The path that a copy is written to before it is complete. -/
def draftPath (d : Disk) (path : Path) : Path :=
  path.dropLast ++ ["." ++ path.getLast?.getD "" ++ "." ++ Disk.serialText 19 d.serial ++ ".tmp"]

theorem leadsDown_draft {name : String} (h : Path.LeadsDown name) (digits number : Nat) :
    Path.LeadsDown ("." ++ name ++ "." ++ Disk.serialText digits number ++ ".tmp") := by
  have hchars : ("." ++ name ++ "." ++ Disk.serialText digits number ++ ".tmp").toList =
      '.' :: (name.toList ++ '.' :: ((Disk.serialText digits number).toList ++ ['.', 't', 'm', 'p'])) := by
    simp
  have hnot (other : String) (hother : 'p' ∉ other.toList) :
      "." ++ name ++ "." ++ Disk.serialText digits number ++ ".tmp" ≠ other := by
    rintro rfl
    rw [hchars] at hother
    simp at hother
  refine ⟨?_, hnot _ (by decide), hnot _ (by decide), hnot _ (by decide)⟩
  rw [hchars]
  simp only [List.mem_cons, List.mem_append, List.not_mem_nil, or_false]
  rintro (h' | h' | h' | h' | h' | h' | h' | h')
  · cases h'
  · exact h.noSlash h'
  · cases h'
  · exact absurd (Disk.isDigit_of_mem_serialText h') (by decide)
  all_goals cases h'

theorem copyPath_isBelow (c : ContentCache) (h : EntryName.normalize? raw = some name) :
    (c.copyPath name).IsBelow c.folder :=
  ⟨EntryName.segments name, EntryName.segments_ne_nil name, fun _ => EntryName.leadsDown_of_normalize? h, rfl⟩

/-- A draft stands beside the copy. -/
theorem draftPath_isBelow (h : path.IsBelow folder) (d : Disk) : (draftPath d path).IsBelow folder := by
  obtain ⟨rest, hne, hdown, rfl⟩ := h
  obtain ⟨front, last, rfl⟩ := (List.eq_nil_or_concat' rest).resolve_left hne
  rw [List.forall_mem_append, List.forall_mem_singleton] at hdown
  have hdraft := leadsDown_draft hdown.2 19 d.serial
  refine ⟨front ++ [_], by simp, List.forall_mem_append.2 ⟨hdown.1, List.forall_mem_singleton.2 hdraft⟩, ?_⟩
  simp [draftPath, ← List.append_assoc]

theorem store?_eq (d : Disk) (path : Path) (copy : ByteArray) : store? d path copy =
    (d.makeFolders? path.dropLast).bind fun d =>
      (d.fresh.2.write? (draftPath d path) (.plain copy)).bind (·.move? (draftPath d path) path) := rfl

/-- Keeping a copy changes no file but below the folder. -/
theorem read?_store?_of_not_isBelow (hpath : path.IsBelow folder) (h : store? d path copy = some d') {q : Path}
    (hq : ¬ q.IsBelow folder) : d'.read? q = d.read? q := by
  rw [store?_eq] at h
  obtain ⟨d₁, hmade, h⟩ := Option.bind_eq_some_iff.1 h
  obtain ⟨d₂, hdraft, hmoved⟩ := Option.bind_eq_some_iff.1 h
  have hne : q ≠ path := fun he => hq (he ▸ hpath)
  have hneDraft : q ≠ draftPath d₁ path := fun he => hq (he ▸ draftPath_isBelow hpath d₁)
  rw [Disk.read?_move?_of_ne hmoved hne, if_neg hneDraft, Disk.read?_write? hdraft, if_neg hneDraft]
  exact Disk.read?_makeFolders? hmade q

theorem store?_confine {allowed : Path → Bool} (h : Path.Admits allowed folder) (hpath : path.IsBelow folder) :
    store? (d.confine allowed) path copy = (store? d path copy).map (·.confine allowed) := by
  have hdraft (d : Disk) : allowed (draftPath d path) = true := h _ (.inl (draftPath_isBelow hpath d))
  rw [store?_eq, store?_eq,
    Disk.makeFolders?_confine d fun q hq => h.of_isPrefix hpath (hq.trans (List.dropLast_prefix path))]
  cases d.makeFolders? path.dropLast with
  | none => rfl
  | some d₁ =>
    simp only [Option.map_some, Option.bind_some, Disk.fresh_confine]
    rw [show draftPath (d₁.confine allowed) path = draftPath d₁ path from rfl, Disk.write?_confine _ (hdraft d₁)]
    cases d₁.fresh.2.write? (draftPath d₁ path) (.plain copy) with
    | none => rfl
    | some d₂ => exact Disk.move?_confine d₂ (h.of_isPrefix hpath List.prefix_rfl)

/-- A call for an entry with a normalized name writes nowhere but below the folder for copies. -/
theorem staysBelow_bytes (c : ContentCache) (d : Disk) (hname : EntryName.normalize? raw = some e.name) :
    Disk.StaysBelow c.folder (fun d => (((c.bytes d e).1, (c.bytes d e).2.1), (c.bytes d e).2.2)) d := by
  have hbelow : (c.copyPath e.name).IsBelow c.folder := c.copyPath_isBelow hname
  have hread (allowed : Path → Bool) : e.location.read (d.confine allowed) = e.location.read d := by
    cases e.location <;> rfl
  refine ⟨fun q hq => ?_, fun allowed h => ?_⟩
  · unfold bytes
    dsimp only
    split
    · rfl
    · split
      · rfl
      · split
        · rfl
        · split
          · split
            · next hstored => exact read?_store?_of_not_isBelow hbelow hstored hq
            · rfl
          · rfl
  · unfold bytes
    simp only [hread, Disk.read?_confine, store?_confine h hbelow]
    split
    · rfl
    · split
      · rfl
      · split
        · rfl
        · next copy _ =>
          split
          · cases store? d (c.copyPath e.name) copy <;> rfl
          · rfl

theorem staysBelow_text (c : ContentCache) (d : Disk) (hname : EntryName.normalize? raw = some e.name) :
    Disk.StaysBelow c.folder (fun d => (((c.text d e).1, (c.text d e).2.1), (c.text d e).2.2)) d := by
  have hbytes := c.staysBelow_bytes d hname
  refine ⟨hbytes.read?, fun allowed h => ?_⟩
  obtain ⟨hgoes, hdisk⟩ := Prod.mk.inj (hbytes.confine allowed h)
  obtain ⟨hresult, hcache⟩ := Prod.mk.inj hgoes
  simp only [text, hresult, hcache, hdisk]

end ContentCache

end ModWeave
