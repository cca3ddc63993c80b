import ModWeave.Proofs.Run.Lookup

/-!
What the cache of copies gives: what lies in the archive. Copies are made, lost, and not made any more, and the
cache may be asked for any entry in between; what it gives for an entry is what is read from where the entry lies.
-/
namespace ModWeave

variable {d d' : Disk}

/-- The text of an entry as it lies on the disk. -/
def Entry.text (e : Entry) (d : Disk) : Except ArchiveError (List Char) :=
  (e.location.read d).bind fun bytes =>
    match String.fromUTF8? bytes with
    | some s => .ok s.toList
    | none => .error (.notText e.name)

/-- What is read depends on one file, if the disk has it. -/
theorem Location.read_congr {l : Location} (hfile : d.isFile l.file = true)
    (h : d'.read? l.file = d.read? l.file) : l.read d' = l.read d := by
  cases l with
  | extracted path =>
    replace h : d'.read? path = d.read? path := h
    rw [read, read, h]
  | packed container raw =>
    obtain ⟨content, hread⟩ := Option.isSome_iff_exists.1 hfile
    replace h : d'.read? container = d.read? container := h
    have hitem := Disk.read?_eq_some_iff.1 hread
    have hitem' := Disk.read?_eq_some_iff.1 (h.trans hread)
    simp only [read, Disk.readMember, show d.item? container = some (.file content) from hitem, hitem']

namespace ContentCache

variable {path : Path} {copy : ByteArray}

/-- A copy that is kept is there. Another one may be lost, but it does not change. -/
theorem read?_store? (h : store? d path copy = some d') :
    d'.read? path = some (.plain copy) ∧ ∀ q, q ≠ path → d'.read? q = d.read? q ∨ d'.read? q = none := by
  simp only [store?, Option.bind_eq_bind, Option.bind_eq_some_iff] at h
  obtain ⟨d₁, hmade, d₂, hdraft, hmoved⟩ := h
  have hread (q : Path) : d₁.fresh.2.read? q = d.read? q := Disk.read?_makeFolders? hmade q
  constructor
  · simp only [Disk.move?, Option.bind_eq_bind, Option.bind_eq_some_iff] at hmoved
    obtain ⟨content, hcontent, d₃, hwritten, hmoved⟩ := hmoved
    rw [Disk.read?_write? hdraft, if_pos rfl] at hcontent
    have hthere : d₃.read? path = some (.plain copy) := by
      rw [Disk.read?_write? hwritten, if_pos rfl, hcontent]
    split at hmoved
    · rwa [← Option.some.inj hmoved]
    · next hne => rwa [Disk.read?_remove? hmoved (Ne.symm hne)]
  · intro q hq
    rw [Disk.read?_move?_of_ne hmoved hq]
    split
    · exact .inr rfl
    · next hne => exact .inl (by rw [Disk.read?_write? hdraft, if_neg hne, hread])

/-- A cache and a disk that give what `d₀` has of an index: its files are as they were, outside of the folder for
copies, and every copy is a true one. -/
structure Mirrors (c : ContentCache) (i : Index) (d₀ d : Disk) : Prop where
  named : ∀ name e, i.get? name = some e → e.name = name
  isFile : ∀ name e, i.get? name = some e → d₀.isFile e.location.file = true
  apart : ∀ name e, i.get? name = some e → ¬ c.folder <+: e.location.file
  same : ∀ name e, i.get? name = some e → d.read? e.location.file = d₀.read? e.location.file
  copies : ∀ name e content, i.get? name = some e → d.read? (c.copyPath name) = some content →
    e.location.read d₀ = .ok content.bytes

namespace Mirrors

variable {c : ContentCache} {i : Index} {d₀ : Disk} {name : String} {e : Entry}

theorem read (h : c.Mirrors i d₀ d) (he : i.get? name = some e) : e.location.read d = e.location.read d₀ :=
  Location.read_congr (h.isFile name e he) (h.same name e he)

/-- A copy that is made is a true one, and leaves the others as they are. -/
theorem store? (h : c.Mirrors i d₀ d) (he : i.get? name = some e) {copy : ByteArray}
    (hread : e.location.read d₀ = .ok copy) (hstored : ContentCache.store? d (c.copyPath name) copy = some d') :
    c.Mirrors i d₀ d' := by
  obtain ⟨hthere, hothers⟩ := read?_store? hstored
  obtain ⟨hspares, -⟩ := spares_store? hstored (c.copyPath_below name)
  refine ⟨h.named, h.isFile, h.apart, fun other f hf => ?_, fun other f content hf hcopy => ?_⟩
  · rw [hspares.read? (List.not_mem_nil) (h.apart other f hf), h.same other f hf]
  · by_cases heq : other = name
    · subst heq
      obtain rfl := Option.some.inj (hf.symm.trans he)
      obtain rfl := Option.some.inj (hthere.symm.trans hcopy)
      exact hread
    · obtain hsame | hnone := hothers (c.copyPath other) fun hpath => heq (c.copyPath_injective hpath)
      · exact h.copies other f content hf (hsame.symm.trans hcopy)
      · rw [hnone] at hcopy
        cases hcopy

/-- Whether copies are kept has no part in what the copies are. -/
theorem disable (h : c.Mirrors i d₀ d) : Mirrors { c with enabled := false } i d₀ d :=
  ⟨h.named, h.isFile, h.apart, h.same, h.copies⟩

/-- The bytes that the cache gives are those that lie in the archive, now and later. -/
theorem bytes (h : c.Mirrors i d₀ d) (he : i.get? name = some e) :
    (c.bytes d e).1 = e.location.read d₀ ∧ (c.bytes d e).2.1.Mirrors i d₀ (c.bytes d e).2.2 := by
  obtain rfl := h.named name e he
  unfold ContentCache.bytes
  dsimp only
  split
  · exact ⟨h.read he, h⟩
  · split
    · next copy hcopy =>
      refine ⟨?_, h⟩
      split at hcopy
      · exact (h.copies e.name e copy he hcopy).symm
      · cases hcopy
    · rw [h.read he]
      split
      · next hread => exact ⟨hread.symm, h⟩
      · next hread =>
        split
        · split
          · next hstored => exact ⟨hread.symm, h.store? he hread hstored⟩
          · exact ⟨hread.symm, h.disable⟩
        · exact ⟨hread.symm, h⟩

theorem text (h : c.Mirrors i d₀ d) (he : i.get? name = some e) :
    (c.text d e).1 = e.text d₀ ∧ (c.text d e).2.1.Mirrors i d₀ (c.text d e).2.2 := by
  obtain ⟨hbytes, hafter⟩ := h.bytes he
  refine ⟨?_, hafter⟩
  rw [Entry.text, ← hbytes]
  rfl

end Mirrors

end ContentCache
end ModWeave
