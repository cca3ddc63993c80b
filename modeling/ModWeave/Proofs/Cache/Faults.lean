import ModWeave.Proofs.Cache.Content
import ModWeave.Proofs.Cache.Sources
import ModWeave.Proofs.Index.Agreement

/-!
What the cache of copies gives when copies cannot be kept. A disk may refuse any write at any time, and copies may go
missing between calls; every call still gives what is read from where its entry lies. After the first copy that could
not be kept the folder for copies is left alone.
-/
namespace ModWeave.ContentCache

variable {c c' : ContentCache} {i : Index} {d₀ d d' : Disk} {name : String} {e : Entry}

/-- A call that has bytes to keep a copy of, and cannot keep it. -/
structure Fails (c : ContentCache) (d : Disk) (e : Entry) : Prop where
  enabled : c.enabled = true
  packed : ∃ container raw, e.location = .packed container raw
  absent : d.read? (c.copyPath e.name) = none
  refused : ∃ bytes, e.location.read d = .ok bytes ∧ store? d (c.copyPath e.name) bytes = none

/-- What can come over a disk between two calls. The files that entries are read from stay as they are. The disk may
refuse other paths than before; copies may go as long as they are used, and after that anything may lie there. -/
structure Lasts (c : ContentCache) (i : Index) (d d' : Disk) : Prop where
  files : ∀ name e, i.get? name = some e → d'.read? e.location.file = d.read? e.location.file
  copies : c.enabled = true → ∀ name,
    d'.read? (c.copyPath name) = d.read? (c.copyPath name) ∨ d'.read? (c.copyPath name) = none

/-- The caches and disks that calls for the entries of an index lead to. -/
inductive Reaches (i : Index) (c : ContentCache) (d : Disk) : ContentCache → Disk → Prop
  | start : Reaches i c d c d
  | bytes {c' : ContentCache} {d' : Disk} {name : String} {e : Entry} (h : Reaches i c d c' d')
      (he : i.get? name = some e) : Reaches i c d (c'.bytes d' e).2.1 (c'.bytes d' e).2.2
  | text {c' : ContentCache} {d' : Disk} {name : String} {e : Entry} (h : Reaches i c d c' d')
      (he : i.get? name = some e) : Reaches i c d (c'.text d' e).2.1 (c'.text d' e).2.2
  | lasts {c' : ContentCache} {d' d'' : Disk} (h : Reaches i c d c' d') (hd : c'.Lasts i d' d'') :
      Reaches i c d c' d''

/-- No call reads or writes a copy. It leaves the disk as it is, and what it gives is the same whatever else lies on the
disk than the file its entry is read from. -/
def IsIdle (c : ContentCache) (i : Index) (d : Disk) : Prop :=
  ∀ name e, i.get? name = some e →
    (c.bytes d e).2 = (c, d) ∧ (c.text d e).2 = (c, d) ∧
    ∀ d' : Disk, d'.read? e.location.file = d.read? e.location.file →
      (c.bytes d' e).1 = (c.bytes d e).1 ∧ (c.text d' e).1 = (c.text d e).1

theorem bytes_of_disabled (h : c.enabled = false) (d : Disk) (e : Entry) :
    c.bytes d e = (e.location.read d, c, d) := by
  unfold bytes
  dsimp only
  split
  · rfl
  · simp only [h, Bool.false_eq_true, if_false]
    split <;> next hread => rw [hread]

theorem text_of_disabled (h : c.enabled = false) (d : Disk) (e : Entry) : c.text d e = (e.text d, c, d) := by
  rw [text, c.bytes_of_disabled h]
  rfl

/-- A call that fails to keep a copy gives the bytes all the same, and copies are given up. -/
theorem Fails.bytes (h : c.Fails d e) : c.bytes d e = (e.location.read d, { c with enabled := false }, d) := by
  obtain ⟨container, raw, hpacked⟩ := h.packed
  obtain ⟨copy, hread, hrefused⟩ := h.refused
  rw [hpacked] at hread
  simp [ContentCache.bytes, hpacked, h.enabled, h.absent, hread, hrefused]

/-- Copies are given up in no other way. -/
theorem cache_of_not_fails (h : ¬ c.Fails d e) : (c.bytes d e).2.1 = c := by
  unfold ContentCache.bytes
  dsimp only
  split
  · rfl
  · next container raw hpacked =>
    split
    · rfl
    · next habsent =>
      split
      · rfl
      · next copy hread =>
        split
        · next henabled =>
          rw [if_pos henabled] at habsent
          split
          · rfl
          · next hrefused => exact absurd ⟨henabled, ⟨_, _, hpacked⟩, habsent, copy, hread, hrefused⟩ h
        · rfl

/-- What calls rely on: the files of the index are as they were, and copies that are used are true ones. -/
structure Serves (c : ContentCache) (i : Index) (d₀ d : Disk) : Prop where
  isFile : ∀ name e, i.get? name = some e → d₀.isFile e.location.file = true
  same : ∀ name e, i.get? name = some e → d.read? e.location.file = d₀.read? e.location.file
  mirrors : c.enabled = true → c.Mirrors i d₀ d

namespace Serves

theorem read (h : c.Serves i d₀ d) (he : i.get? name = some e) : e.location.read d = e.location.read d₀ :=
  Location.read_congr (h.isFile name e he) (h.same name e he)

theorem of_mirrors (h : c.Mirrors i d₀ d) : c.Serves i d₀ d := ⟨h.isFile, h.same, fun _ => h⟩

/-- A call gives what its entry's location holds, and leaves what later calls rely on. -/
theorem bytes (h : c.Serves i d₀ d) (he : i.get? name = some e) :
    (c.bytes d e).1 = e.location.read d ∧ (c.bytes d e).2.1.Serves i d₀ (c.bytes d e).2.2 := by
  cases henabled : c.enabled with
  | true =>
    obtain ⟨hbytes, hafter⟩ := (h.mirrors henabled).bytes he
    exact ⟨hbytes.trans (h.read he).symm, of_mirrors hafter⟩
  | false =>
    rw [c.bytes_of_disabled henabled]
    exact ⟨rfl, h⟩

theorem lasts (h : c.Serves i d₀ d) (hd : c.Lasts i d d') : c.Serves i d₀ d' where
  isFile := h.isFile
  same name e he := (hd.files name e he).trans (h.same name e he)
  mirrors henabled := by
    have hmirrors := h.mirrors henabled
    refine ⟨hmirrors.named, h.isFile, hmirrors.apart, fun name e he => ?_, fun name e content he hcopy => ?_⟩
    · exact (hd.files name e he).trans (h.same name e he)
    · obtain hsame | hgone := hd.copies henabled name
      · exact hmirrors.copies name e content he (hsame.symm.trans hcopy)
      · rw [hgone] at hcopy
        cases hcopy

theorem reaches (h : c.Serves i d₀ d) (hc : Reaches i c d c' d') : c'.Serves i d₀ d' := by
  induction hc with
  | start => exact h
  | bytes _ he ih => exact (ih.bytes he).2
  | text _ he ih => exact (ih.bytes he).2
  | lasts _ hd ih => exact ih.lasts hd

/-- A cache that has given copies up does without them. -/
theorem isIdle (h : c.Serves i d₀ d) (hc : c.enabled = false) : c.IsIdle i d := by
  intro name e he
  simp only [c.bytes_of_disabled hc, c.text_of_disabled hc, true_and]
  intro d' hsame
  have hfile : d.isFile e.location.file = true := by
    rw [Disk.isFile, h.same name e he]
    exact h.isFile name e he
  have hread := Location.read_congr hfile hsame
  exact ⟨hread, by rw [Entry.text, Entry.text, hread]⟩

end Serves

/-- Copies that were given up are never used again. -/
theorem Reaches.disabled (h : Reaches i c d c' d') (hc : c.enabled = false) : c'.enabled = false := by
  induction h with
  | start => exact hc
  | bytes _ _ ih => rwa [bytes_of_disabled ih]
  | text _ _ ih => rwa [text_of_disabled ih]
  | lasts _ _ ih => exact ih

/-- A new cache for an index that was built, in a folder in which there are no files. -/
theorem serves_of_build {mode : IndexMode} {source : String} {target folder : Path}
    (h : Index.build mode source target d₀ = (.ok i, d)) (hnew : ∀ q, folder <+: q → d.isFile q = false) :
    (new folder).Serves i d d := by
  obtain ⟨es, hregisters, -⟩ := Index.registers_of_build h
  obtain ⟨hsourced, -⟩ := Index.sourced_of_build h
  refine .of_mirrors ⟨fun name e he => hregisters.name_of_get? he, fun name e he => (hsourced name e he).1,
    fun name e he hbelow => ?_, fun _ _ _ => rfl, fun name e content he hcopy => ?_⟩
  · exact absurd (hsourced name e he).1 (by simp [hnew _ hbelow])
  · have hnone := hnew ((new folder).copyPath name) (List.prefix_append _ _)
    simp [Disk.isFile, hcopy] at hnone

/-- **The cache of copies does not show.** Whatever calls came before, and whatever writes the disk refused, a call
gives what is read from where its entry lies, which has not changed since the index was built. A copy that cannot be kept
fails no call; from then on no call reads or writes a copy, and only then. -/
theorem calls_of_build {mode : IndexMode} {source : String} {target folder : Path}
    (h : Index.build mode source target d₀ = (.ok i, d)) (hnew : ∀ q, folder <+: q → d.isFile q = false)
    (hc : Reaches i (new folder) d c d') :
    (∀ name e, i.get? name = some e →
      (c.bytes d' e).1 = e.location.read d' ∧ (c.text d' e).1 = e.text d' ∧
      e.location.read d' = e.location.read d) ∧
    (∀ name e, i.get? name = some e → c.Fails d' e →
      ∀ c' d'', Reaches i (c.bytes d' e).2.1 (c.bytes d' e).2.2 c' d'' → c'.IsIdle i d'') ∧
    (∀ e, ¬ c.Fails d' e → (c.bytes d' e).2.1 = c) := by
  have hserves := (serves_of_build h hnew).reaches hc
  refine ⟨fun name e he => ⟨(hserves.bytes he).1, ?_, hserves.read he⟩, fun name e he hfails c' d'' hlater => ?_,
    fun e => cache_of_not_fails⟩
  · rw [Entry.text, ← (hserves.bytes he).1]
    rfl
  · refine ((hserves.bytes he).2.reaches hlater).isIdle (hlater.disabled ?_)
    rw [hfails.bytes]

private theorem read?_single {name : String} {content : Content} {q : Path} (h : q ≠ [name]) :
    (Disk.single name content).read? q = none := by
  have hnone : (Disk.single name content).items[q]? = none := by
    simp [Disk.single, h.symm]
  unfold Disk.read? Disk.item?
  rw [hnone]
  split <;> simp_all

/-- Of two entries one has the other's name for a folder, so that only the other one gets a copy. -/
theorem calls_of_build_of_a_name_in_the_way :
    let archive := Content.pack .zip [("a", .ofText "1"), ("a/b", .ofText "2")]
    ∃ i d e f, Index.build .index "m.zip" ["nested"] (.single "m.zip" archive) = (.ok i, d) ∧
      i.get? "a" = some e ∧ i.get? "a/b" = some f ∧
      let s := ((new ["copies"]).bytes d e).2
      s.1.Fails s.2 f ∧ (s.1.bytes s.2 f).1 = f.location.read d ∧ f.location.read d = .ok "2".toUTF8 ∧
      (s.1.bytes s.2 f).2.1.IsIdle i (s.1.bytes s.2 f).2.2 := by
  obtain ⟨i, d, e, f, hbuild, he, hf, hread, henabled, hpacked, habsent, hrefused⟩ :
      let archive := Content.pack .zip [("a", .ofText "1"), ("a/b", .ofText "2")]
      ∃ i d e f, Index.build .index "m.zip" ["nested"] (.single "m.zip" archive) = (.ok i, d) ∧
      i.get? "a" = some e ∧ i.get? "a/b" = some f ∧ f.location.read d = .ok "2".toUTF8 ∧
      let s := ((new ["copies"]).bytes d e).2
      s.1.enabled = true ∧ f.location = .packed ["m.zip"] "a/b" ∧ (s.2.read? (s.1.copyPath f.name)).isNone = true ∧
      (store? s.2 (s.1.copyPath f.name) "2".toUTF8).isNone = true :=
    ⟨_, _, _, _, rfl, rfl, rfl, rfl, by decide +kernel, rfl, by decide +kernel, by decide +kernel⟩
  intro archive
  have hnew : ∀ q, ["copies"] <+: q → d.isFile q = false := by
    rintro q ⟨rest, rfl⟩
    obtain ⟨-, hgrows⟩ := Index.sourced_of_build hbuild
    rw [Disk.isFile, hgrows.read? _ (by simp), read?_single (by simp)]
    rfl
  have hreached : Reaches i (new ["copies"]) d _ _ := .bytes .start he
  obtain ⟨hbytes, hidle, -⟩ := calls_of_build hbuild hnew hreached
  obtain ⟨hcall, -, hkept⟩ := hbytes "a/b" f hf
  have hfails := Fails.mk henabled ⟨_, _, hpacked⟩ (Option.isNone_iff_eq_none.1 habsent)
    ⟨_, hkept.trans hread, Option.isNone_iff_eq_none.1 hrefused⟩
  exact ⟨i, d, e, f, hbuild, he, hf, hfails, hcall.trans hkept, hread, hidle "a/b" f hf hfails _ _ .start⟩

end ModWeave.ContentCache
