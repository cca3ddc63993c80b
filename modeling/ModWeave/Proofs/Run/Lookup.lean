import ModWeave.Proofs.Index.Agreement
import ModWeave.Proofs.Run.Keeps

/-! Looking up the game's own files. A file that was not asked for before is read from where it lies, whichever
other files were asked for, and however few trees are kept and for however short a time. -/
namespace ModWeave

/-- The file on the disk that the bytes are in. -/
def Location.file : Location → Path
  | .extracted path => path
  | .packed container _ => container

/-- The text of a file in an archive, read from where it lies. -/
def Index.text? (i : Index) (d : Disk) (name : String) : Option (List Char) :=
  (i.get? name).bind fun e => (e.location.read d).toOption.bind fun bytes =>
    (String.fromUTF8? bytes).map String.toList

section Read

variable {d d' : Disk} {path : Path} {name : String}

private theorem toOption_readMember_of_none (h : d.read? path = none) :
    (d.readMember path name).toOption = none := by
  have hfile (content : Content) : d.item? path ≠ some (.file content) := fun hitem => by
    rw [Disk.read?_eq_some_iff.2 hitem] at h
    cases h
  unfold Disk.readMember
  dsimp only
  split
  · rfl
  · split
    · exact absurd ‹_› (hfile _)
    · exact absurd ‹_› (hfile _)
    · rfl
    · rfl

/-- What can be read depends on one file. -/
theorem Location.toOption_read_congr {l : Location} (h : d'.read? l.file = d.read? l.file) :
    (l.read d').toOption = (l.read d).toOption := by
  cases l with
  | extracted path =>
    replace h : d'.read? path = d.read? path := h
    rw [read, read, h]
  | packed container raw =>
    replace h : d'.read? container = d.read? container := h
    show (d'.readMember container raw).toOption = (d.readMember container raw).toOption
    cases hread : d.read? container with
    | none => rw [toOption_readMember_of_none hread, toOption_readMember_of_none (h.trans hread)]
    | some content =>
      have hitem := Disk.read?_eq_some_iff.1 hread
      have hitem' := Disk.read?_eq_some_iff.1 (h.trans hread)
      simp only [Disk.readMember, hitem, hitem']

theorem Index.text?_congr {i : Index}
    (h : ∀ e, i.get? name = some e → d'.read? e.location.file = d.read? e.location.file) :
    i.text? d' name = i.text? d name := by
  unfold text?
  cases hget : i.get? name with
  | none => rfl
  | some e => rw [Option.bind_some, Option.bind_some, Location.toOption_read_congr (h e hget)]

end Read

/-- An entry without a copy is read from where it lies. -/
theorem ContentCache.toOption_bytes {c : ContentCache} {d : Disk} {e : Entry}
    (h : d.read? (c.copyPath e.name) = none) :
    (c.bytes d e).1.toOption = (e.location.read d).toOption := by
  unfold bytes
  dsimp only
  split
  · rfl
  · rw [h, ite_self]
    dsimp only
    split
    · next hread => rw [hread]
    · next hread =>
      split
      · split <;> rw [hread]
      · rw [hread]

section Trees

variable {α ε : Type} {c : RecentCache α} {now : Nat} {key name : String}

theorem RecentCache.get?_eq_none (h : ∀ slot ∈ c.slots, slot.key ≠ key) : c.get? now key = none := by
  have hfind : c.slots.find? (·.key = key) = none := by
    rw [List.find?_eq_none]
    simpa using h
  simp [get?, slot?, hfind]

/-- Only the key that was asked for gets a slot. -/
theorem RecentCache.key_ne_getOrCompute {compute : Except ε α} (h : ∀ slot ∈ c.slots, slot.key ≠ name)
    (hne : key ≠ name) : ∀ slot ∈ (c.getOrCompute now key compute).2.slots, slot.key ≠ name := by
  have hreserve : ∀ slot ∈ (c.reserve now key).slots, slot.key ≠ name := by
    intro slot hslot
    unfold reserve at hslot
    split at hslot
    · exact h slot hslot
    · obtain hslot | hslot := List.mem_append.1 hslot
      · exact h slot (List.mem_of_mem_filter (List.mem_of_mem_drop hslot))
      · rw [List.mem_singleton] at hslot
        rw [hslot]
        exact hne
  unfold getOrCompute
  split
  · exact h
  · dsimp only
    split
    · intro slot hslot
      obtain ⟨old, hold, rfl⟩ := List.mem_map.1 hslot
      split
      · exact hreserve old hold
      · exact hreserve old hold
    · exact hreserve

end Trees

namespace BaseArchive

/-- No file of the archive goes under another's name. -/
def IsNamed (b : BaseArchive) : Prop := ∀ name e, b.index.get? name = some e → e.name = name

/-- An archive that was loaded has its files under their names, and no trees of them yet. -/
theorem fresh_of_load {path : String} {folder : Path} {cache : CacheSettings} {d d' : Disk} {b : BaseArchive}
    (h : load path folder cache d = (.ok b, d')) :
    b.IsNamed ∧ b.trees.slots = [] ∧ b.content.folder = folder ++ ["content"] := by
  unfold load at h
  split at h
  · dsimp only at h
    cases hbuild : (Index.build .index path (folder ++ ["nested"]) d).1 with
    | error e =>
      rw [hbuild] at h
      cases (Prod.mk.inj h).1
    | ok index =>
      rw [hbuild] at h
      obtain rfl := Except.ok.inj (Prod.mk.inj h).1
      obtain ⟨es, hregisters, -⟩ := Index.registers_of_build (Prod.ext hbuild rfl)
      exact ⟨fun name e he => hregisters.name_of_get? he, rfl, rfl⟩
  · cases (Prod.mk.inj h).1

/-- A file was not asked for: neither a copy nor a tree of it is kept. -/
structure Unasked (b : BaseArchive) (d : Disk) (name : String) : Prop where
  copy : d.read? (b.content.copyPath name) = none
  tree : ∀ slot ∈ b.trees.slots, slot.key ≠ name

variable {b : BaseArchive} {d : Disk} {now : Nat} {name other : String} {language : Language}

/-- A file that was not asked for has the tree of the text that lies in the archive, if any. -/
theorem Unasked.toOption_tree (h : b.Unasked d name) (hnamed : b.IsNamed) (now : Nat) (language : Language) :
    (b.tree d now name language).1.toOption.join =
      (b.index.text? d name).bind fun text => (language.parse text).toOption := by
  have hnone (now : Nat) : b.trees.get? now name = none := RecentCache.get?_eq_none h.tree
  unfold BaseArchive.tree Index.text?
  cases hget : b.index.get? name with
  | none => rfl
  | some e =>
    have hbytes : (b.content.bytes d e).1.toOption = (e.location.read d).toOption :=
      ContentCache.toOption_bytes (by rw [hnamed name e hget]; exact h.copy)
    rw [Option.bind_some, ← hbytes]
    simp only [hnone, ContentCache.text, RecentCache.getOrCompute]
    cases (b.content.bytes d e).1 with
    | error _ => rfl
    | ok bytes =>
      simp only [Except.bind, Except.toOption, Option.bind_some]
      cases String.fromUTF8? bytes with
      | none => rfl
      | some text =>
        simp only [Option.map_some, Option.bind_some, Except.mapError, bind, Except.bind]
        cases language.parse text.toList <;> rfl

/-- Asking for another file is not asking for this one. -/
theorem Unasked.of_other (h : b.Unasked d name) (hnamed : b.IsNamed) (hne : other ≠ name) (now : Nat)
    (language : Language) :
    (b.tree d now other language).2.1.Unasked (b.tree d now other language).2.2 name := by
  have hfolder := (b.keeps_tree d now other language).2.1
  have hpath : (b.tree d now other language).2.1.content.copyPath name = b.content.copyPath name := by
    rw [ContentCache.copyPath, ContentCache.copyPath, hfolder]
  constructor
  · rw [hpath]
    unfold BaseArchive.tree
    split
    · exact h.copy
    · next entry hget =>
      split
      · exact h.copy
      · refine (b.content.keeps_bytes d entry).2.2 name (fun heq => hne ?_) h.copy
        rw [heq, hnamed other entry hget]
  · unfold BaseArchive.tree
    split
    · exact h.tree
    · split
      · exact h.tree
      · exact RecentCache.key_ne_getOrCompute h.tree hne

end BaseArchive

end ModWeave
