import ModWeave.Proofs.Cache.Content
import ModWeave.Proofs.Cache.Recent
import ModWeave.Proofs.Cache.Sources
import ModWeave.Proofs.Tree.Reading

/-!
What the base archive gives for a tree: the tree of the file that lies in the archive, whatever was asked before.
Its cache of trees knows them by the name of the file, so the tree of a file that is asked for in two languages
can be that of the other.
-/
namespace ModWeave.BaseArchive

/-- What is asked of the base archive: the tree of a file in a language, at some time. -/
structure Request where
  now : Nat
  name : String
  language : Language
deriving DecidableEq

/-- The tree of a file as it lies in the archive, nothing for a file that the archive does not have. -/
def reading (b : BaseArchive) (d : Disk) (name : String) (language : Language) :
    Except BaseError (Option Tree) :=
  match b.index.get? name with
  | none => .ok none
  | some e =>
    let parsed : Except BaseError Tree := do
      let text ← (e.text d).mapError .noText
      (language.parse text).mapError (.parsing name)
    parsed.map some

/-- The archive and the disk after some requests, one after the other. -/
def asked (b : BaseArchive) (d : Disk) (past : List Request) : BaseArchive × Disk :=
  past.foldl (fun (b, d) r => (b.tree d r.now r.name r.language).2) (b, d)

/-- An archive after some requests. Every tree that is kept was read from the archive, for one of them. -/
structure Follows (b : BaseArchive) (d : Disk) (past : List Request) (b' : BaseArchive) (d' : Disk) : Prop where
  index : b'.index = b.index
  content : b'.content.Mirrors b.index d d'
  trees : ∀ slot ∈ b'.trees.slots, ∀ t, slot.value = some t →
    ∃ r ∈ past, r.name = slot.key ∧ b.reading d slot.key r.language = .ok (some t)

variable {b b' : BaseArchive} {d d' : Disk} {past : List Request} {now : Nat} {name : String} {language : Language}

namespace Follows

/-- A request is answered from the archive, in its own language unless a tree is kept that was read for an earlier
one. -/
theorem tree (h : b.Follows d past b' d') (now : Nat) (name : String) (language : Language) :
    ∃ l, (b'.tree d' now name language).1 = b.reading d name l ∧
      (l = language ∨ (b'.trees.get? now name).isSome = true ∧ ∃ r ∈ past, r.name = name ∧ r.language = l) := by
  unfold BaseArchive.tree
  rw [h.index]
  cases hindex : b.index.get? name with
  | none => exact ⟨language, by simp [reading, hindex], .inl rfl⟩
  | some e =>
    cases hget : b'.trees.get? now name with
    | some t =>
      obtain ⟨slot, hslot, hkey, hvalue⟩ := RecentCache.exists_value_of_get? hget
      obtain ⟨r, hr, hname, hreading⟩ := h.trees slot hslot t hvalue
      rw [hkey] at hname hreading
      exact ⟨r.language, hreading.symm, .inr ⟨rfl, r, hr, hname, rfl⟩⟩
    | none =>
      refine ⟨language, ?_, .inl rfl⟩
      simp only [RecentCache.getOrCompute, hget, (h.content.text hindex).1, reading, hindex]
      split <;> next hparsed => rw [hparsed]

theorem mono {more : List Request} (h : b.Follows d past b' d') (hsub : past ⊆ more) : b.Follows d more b' d' where
  index := h.index
  content := h.content
  trees slot hslot t hvalue := by
    obtain ⟨r, hr, hname, hreading⟩ := h.trees slot hslot t hvalue
    exact ⟨r, hsub hr, hname, hreading⟩

theorem request (h : b.Follows d past b' d') (r : Request) :
    b.Follows d (past ++ [r]) (b'.tree d' r.now r.name r.language).2.1
      (b'.tree d' r.now r.name r.language).2.2 := by
  have hmore := h.mono (List.subset_append_left past [r])
  unfold BaseArchive.tree
  cases hindex : b'.index.get? r.name with
  | none => exact hmore
  | some e =>
    rw [h.index] at hindex
    cases hget : b'.trees.get? r.now r.name with
    | some t => exact hmore
    | none =>
      obtain ⟨htext, hcontent⟩ := h.content.text hindex
      refine ⟨h.index, hcontent, fun slot hslot t hvalue => ?_⟩
      obtain ⟨old, hold, hkey, hthere⟩ | ⟨hkey, hparsed⟩ := RecentCache.value_getOrCompute hslot hvalue
      · rw [← hkey]
        exact hmore.trees old hold t hthere
      · refine ⟨r, List.mem_append_right past (List.mem_singleton_self r), hkey.symm, ?_⟩
        rw [htext] at hparsed
        simp only [hkey, reading, hindex, hparsed]
        rfl

theorem asked (h : b.Follows d past b' d') (more : List Request) :
    b.Follows d (past ++ more) (b'.asked d' more).1 (b'.asked d' more).2 := by
  induction more generalizing past b' d' with
  | nil => rwa [List.append_nil]
  | cons r more ih =>
    have hmore := ih (h.request r)
    rwa [List.append_assoc] at hmore

end Follows

theorem build_of_load {path : String} {folder : Path} {cache : CacheSettings} {disk : Disk}
    (h : load path folder cache disk = (.ok b, d)) :
    Index.build .index path (folder ++ ["nested"]) disk = (.ok b.index, d) := by
  unfold load at h
  split at h
  · dsimp only at h
    cases hbuild : (Index.build .index path (folder ++ ["nested"]) disk).1 with
    | error e =>
      rw [hbuild] at h
      cases (Prod.mk.inj h).1
    | ok index =>
      rw [hbuild] at h
      obtain ⟨hb, hd⟩ := Prod.mk.inj h
      obtain rfl := Except.ok.inj hb
      exact Prod.ext hbuild hd
  · cases h

/-- Whether every copy that is there of a file of the archive is a true one, as it is where there is none. -/
def HasTrueCopies (b : BaseArchive) (d : Disk) : Prop :=
  ∀ name e content, b.index.get? name = some e → d.read? (b.content.copyPath name) = some content →
    e.location.read d = .ok content.bytes

private theorem apart (folder : Path) {q : Path} (hq : folder ++ ["content"] <+: q) :
    ¬ folder ++ ["nested"] <+: q := by
  intro hq'
  have heq := (List.prefix_of_prefix_length_le hq hq' (by simp)).eq_of_length (by simp)
  simp at heq

/-- A folder for copies that is new has no false ones. -/
theorem hasTrueCopies_of_load {path : String} {folder : Path} {cache : CacheSettings} {disk : Disk}
    (h : load path folder cache disk = (.ok b, d))
    (hnew : ∀ q, folder ++ ["content"] <+: q → disk.read? q = none) : b.HasTrueCopies d := by
  intro name e content _ hcopy
  obtain ⟨-, -, hfolder⟩ := fresh_of_load h
  obtain ⟨-, hgrows⟩ := Index.sourced_of_build (build_of_load h)
  have hbelow : folder ++ ["content"] <+: b.content.copyPath name := hfolder ▸ List.prefix_append _ _
  rw [hgrows.read? _ (apart folder hbelow), hnew _ hbelow] at hcopy
  cases hcopy

/-- An archive that was loaded, and does not lie where its copies will be. -/
theorem follows_of_load {path : String} {folder : Path} {cache : CacheSettings} {disk : Disk}
    (h : load path folder cache disk = (.ok b, d)) (hplace : ¬ folder ++ ["content"] <+: Path.ofText path)
    (hcopies : b.HasTrueCopies d) : b.Follows d [] b d := by
  obtain ⟨hnamed, hslots, hfolder⟩ := fresh_of_load h
  obtain ⟨hsourced, -⟩ := Index.sourced_of_build (build_of_load h)
  refine ⟨rfl, ⟨hnamed, fun name e he => (hsourced name e he).1, fun name e he => ?_, fun _ _ _ => rfl, hcopies⟩, ?_⟩
  · rw [hfolder]
    obtain htop | hbelow := (hsourced name e he).2
    · rwa [htop]
    · exact fun hcopy => apart folder hcopy hbelow
  · simp [hslots]

/-- **The cache of trees does not show, but for languages.** Each request to an archive that was loaded is answered
with what is read from the archive, in the language of that request or of an earlier one for the same file, of
which the tree is still kept; so a file that is only asked for in one language is read in that language. -/
theorem tree_of_load {path : String} {folder : Path} {cache : CacheSettings} {disk : Disk}
    (h : load path folder cache disk = (.ok b, d)) (hplace : ¬ folder ++ ["content"] <+: Path.ofText path)
    (hcopies : b.HasTrueCopies d) (past : List Request) (now : Nat) (name : String) (language : Language) :
    let s := b.asked d past
    (∃ l, (s.1.tree s.2 now name language).1 = b.reading d name l ∧
      (l = language ∨ (s.1.trees.get? now name).isSome = true ∧ ∃ r ∈ past, r.name = name ∧ r.language = l)) ∧
    ((∀ r ∈ past, r.name = name → r.language = language) →
      (s.1.tree s.2 now name language).1 = b.reading d name language) := by
  intro s
  have hfollows : b.Follows d past s.1 s.2 := (follows_of_load h hplace hcopies).asked past
  obtain ⟨l, hanswer, hl⟩ := hfollows.tree now name language
  refine ⟨⟨l, hanswer, hl⟩, fun hone => ?_⟩
  obtain rfl | ⟨-, r, hr, hname, rfl⟩ := hl
  · exact hanswer
  · rw [hanswer, hone r hr hname]

section Sample

/-- A disk with nothing but an archive of one script. -/
def sampleDisk : Disk := .single "m.zip" (Content.pack .zip [("a.scr", .ofText "a();")])

private theorem read?_sampleDisk {q : Path} (h : q ≠ ["m.zip"]) : sampleDisk.read? q = none := by
  have hnone : sampleDisk.items[q]? = none := by
    simp [sampleDisk, Disk.single, h.symm]
  unfold Disk.read? Disk.item?
  rw [hnone]
  split <;> simp_all

theorem tree_of_a_script_asked_for_again : ∃ b d, load "m.zip" ["c"] ⟨4, 60⟩ sampleDisk = (.ok b, d) ∧
    let s := b.asked d [⟨0, "a.scr", .script⟩, ⟨1, "b.scr", .markup⟩]
    (s.1.tree s.2 2 "a.scr" .script).1 = b.reading d "a.scr" .script ∧
      (b.reading d "a.scr" .script).toOption.join.isSome = true := by
  obtain ⟨b, d, hload, hsome⟩ : ∃ b d, load "m.zip" ["c"] ⟨4, 60⟩ sampleDisk = (.ok b, d) ∧
      (b.reading d "a.scr" .script).toOption.join.isSome = true := ⟨_, _, rfl, by decide +kernel⟩
  have hcopies : b.HasTrueCopies d := by
    refine hasTrueCopies_of_load hload fun q hq => read?_sampleDisk ?_
    rintro rfl
    exact absurd hq (by decide)
  refine ⟨b, d, hload, ?_, hsome⟩
  exact (tree_of_load hload (by decide) hcopies _ 2 "a.scr" .script).2 (by decide)

/-- A script that was read as such is given when it is asked for as markup, which it is not. -/
theorem tree_mistakes_a_language : ∃ b d, load "m.zip" ["c"] ⟨4, 60⟩ sampleDisk = (.ok b, d) ∧
    let s := b.asked d [⟨0, "a.scr", .script⟩]
    (∃ t, (s.1.tree s.2 1 "a.scr" .markup).1 = .ok (some t)) ∧ ∃ e, b.reading d "a.scr" .markup = .error e := by
  obtain ⟨b, d, hload, hsome, hnone⟩ : ∃ b d, load "m.zip" ["c"] ⟨4, 60⟩ sampleDisk = (.ok b, d) ∧
      ((b.asked d [⟨0, "a.scr", .script⟩]).1.tree (b.asked d [⟨0, "a.scr", .script⟩]).2 1 "a.scr"
        .markup).1.toOption.join.isSome = true ∧
      (b.reading d "a.scr" .markup).toOption.isNone = true :=
    ⟨_, _, rfl, by decide +kernel, by decide +kernel⟩
  refine ⟨b, d, hload, ?_, ?_⟩
  · obtain ⟨t, ht⟩ := Option.isSome_iff_exists.1 hsome
    exact ⟨t, ok_of_toOption (Option.join_eq_some_iff.1 ht)⟩
  · cases hreading : b.reading d "a.scr" .markup with
    | ok _ => simp [hreading, Except.toOption] at hnone
    | error e => exact ⟨e, rfl⟩

end Sample

end ModWeave.BaseArchive
