import Mathlib.Data.List.Nodup
import ModWeave.Cli.Program
import ModWeave.Proofs.Document.Recovery
import ModWeave.Proofs.Index.Packing

/-!
Settings that are saved and loaded. They come back as they were, since what they are saved as is a plain
document in which every field is named once.
-/
namespace ModWeave.Document

theorem mapM_map_eq_some {α β γ : Type} {f : β → Option γ} {g : α → β} {k : α → γ} {xs : List α}
    (h : ∀ x ∈ xs, f (g x) = some (k x)) : (xs.map g).mapM f = some (xs.map k) := by
  induction xs with
  | nil => rfl
  | cons x xs ih =>
    obtain ⟨hx, hxs⟩ := List.forall_mem_cons.mp h
    rw [List.map_cons, List.mapM_cons, hx, ih hxs]
    rfl

theorem mapM_map_self {α β : Type} {f : β → Option α} {g : α → β} (h : ∀ x, f (g x) = some x)
    (xs : List α) : (xs.map g).mapM f = some xs := by
  have hmap : (xs.map g).mapM f = some (xs.map fun x => x) := mapM_map_eq_some fun x _ => h x
  rwa [List.map_id'] at hmap

/-! ### Structures -/

section Structure

variable {fields : List (String × Document)} {f : String × Document}

theorem filter_of_nodup (h : (fields.map Prod.fst).Nodup) (hf : f ∈ fields) :
    fields.filter (·.1 = f.1) = [f] := by
  induction fields with
  | nil => cases hf
  | cons g gs ih =>
    obtain ⟨hg, hgs⟩ := List.nodup_cons.mp h
    have hmem {x : String × Document} (hx : x ∈ gs) : x.1 ≠ g.1 :=
      fun heq => hg (heq ▸ List.mem_map_of_mem hx)
    cases hf with
    | head =>
      have hnone : gs.filter (·.1 = f.1) = [] := by
        simpa using fun name d hx => hmem hx
      rw [List.filter_cons_of_pos (by simp), hnone]
    | tail _ hf => rw [List.filter_cons_of_neg (by simpa using (hmem hf).symm), ih hgs hf]

/-- A structure is taken out of the record of its fields. -/
theorem structure?_ofFields {names : List String} (hnames : fields.map Prod.fst = names)
    (h : names.Nodup) : (ofFields fields).structure? names = some (fields.map fun f => some f.2) := by
  subst hnames
  have hnamed : named? (fields.map fun f => (some f.1, f.2)) = some fields :=
    mapM_map_self (g := fun f : String × Document => (some f.1, f.2)) (fun _ => rfl) fields
  have hunique : (fields.map Prod.fst).mapM (unique? fields) = some (fields.map fun f => some f.2) := by
    refine mapM_map_eq_some fun f hf => ?_
    rw [unique?, filter_of_nodup h hf]
  change (named? (fields.map fun f => (some f.1, f.2))).bind _ = _
  rw [hnamed]
  exact hunique

end Structure

/-! ### Other values -/

theorem toStrings?_ofStrings (xs : List String) : toStrings? (ofStrings xs) = some xs :=
  mapM_map_self (f := toString?) (g := ofString) (fun _ => rfl) xs

theorem toOption?_ofString? (s : Option String) : toOption? toString? (ofString? s) = some s := by
  cases s <;> rfl

theorem toWord?_natural {n : Nat} (h : n < UInt64.size) : toWord? (natural n) = some n := if_pos h

theorem lt_of_toWord? {d : Document} {n : Nat} (h : toWord? d = some n) : n < UInt64.size := by
  cases d with
  | natural m =>
    obtain ⟨hm, heq⟩ := Option.ite_none_right_eq_some.mp h
    exact Option.some.inj heq ▸ hm
  | _ => cases h

/-- What holds of a missing field and of all that is decoded holds of a field. -/
theorem of_orElse? {α : Type} {p : α → Prop} {field : Option Document} {missing a : α}
    {decode : Document → Option α} (h : orElse? field missing decode = some a) (hmissing : p missing)
    (hdecode : ∀ d, decode d = some a → p a) : p a := by
  cases field with
  | none => exact Option.some.inj h ▸ hmissing
  | some d => exact hdecode d h

/-! ### Documents that values are put into -/

theorem plain_ofFields {fields : List (String × Document)} (h : ∀ f ∈ fields, f.2.Plain) :
    (ofFields fields).Plain :=
  .record (List.forall_mem_map.mpr fun _ _ => rfl) (List.forall_mem_map.mpr h)

theorem plain_ofStrings (xs : List String) : (ofStrings xs).Plain :=
  .list (List.forall_mem_map.mpr fun x _ => .text x)

theorem plain_ofString? (s : Option String) : (ofString? s).Plain := by
  cases s with
  | none => exact .null
  | some s => exact .text s

end ModWeave.Document

namespace ModWeave

open Document

/-- Whether the counts are words of 64 bits. -/
def CacheSettings.Fits (s : CacheSettings) : Prop := s.maxTrees < UInt64.size ∧ s.lifetime < UInt64.size

namespace MergeSettings

theorem plain_toDocument (s : MergeSettings) : s.toDocument.Plain := by
  refine plain_ofFields ?_
  simp only [List.forall_mem_cons]
  exact ⟨.bool _, .text _, plain_ofStrings _, plain_ofStrings _, List.forall_mem_nil _⟩

theorem ofDocument?_toDocument (s : MergeSettings) : ofDocument? s.toDocument = some s := by
  have hfields : s.toDocument.structure?
      ["auto_merge_novel", "path_correction", "script_extensions", "xml_extensions"] =
      some [some (.bool s.autoMergeNovel), some (.ofString s.pathCorrection.name),
        some (.ofStrings s.scriptExtensions), some (.ofStrings s.markupExtensions)] :=
    structure?_ofFields rfl (by decide)
  have hchoice : choice? [("smart", PathCorrection.smart), ("keep", .keep)]
      (.ofString s.pathCorrection.name) = some s.pathCorrection := by
    cases s.pathCorrection <;> rfl
  rw [ofDocument?, hfields]
  simp [orElse?, hchoice, toStrings?_ofStrings, toBool?]

end MergeSettings

namespace CacheSettings

theorem default_fits : default.Fits := ⟨by decide, by decide⟩

theorem plain_toDocument (s : CacheSettings) : s.toDocument.Plain := by
  refine plain_ofFields ?_
  simp only [List.forall_mem_cons]
  exact ⟨.natural _, .natural _, List.forall_mem_nil _⟩

theorem ofDocument?_toDocument {s : CacheSettings} (h : s.Fits) : ofDocument? s.toDocument = some s := by
  have hfields : s.toDocument.structure? ["max_trees", "ttl_secs"] =
      some [some (.natural s.maxTrees), some (.natural s.lifetime)] :=
    structure?_ofFields rfl (by decide)
  rw [ofDocument?, hfields]
  simp [orElse?, toWord?_natural h.1, toWord?_natural h.2]

/-- Counts that are read are words. -/
theorem fits_of_ofDocument? {d : Document} {s : CacheSettings} (h : ofDocument? d = some s) : s.Fits := by
  obtain ⟨fields, -, h⟩ := Option.bind_eq_some_iff.mp h
  split at h
  · obtain ⟨maxTrees, hmax, h⟩ := Option.bind_eq_some_iff.mp h
    obtain ⟨lifetime, hlifetime, h⟩ := Option.bind_eq_some_iff.mp h
    cases h
    exact ⟨of_orElse? (p := (· < UInt64.size)) hmax (by decide) fun _ => lt_of_toWord?,
      of_orElse? (p := (· < UInt64.size)) hlifetime (by decide) fun _ => lt_of_toWord?⟩
  · cases h

end CacheSettings

namespace Settings

theorem plain_toDocument (s : Settings) : s.toDocument.Plain := by
  refine plain_ofFields ?_
  simp only [List.forall_mem_cons]
  exact ⟨s.merge.plain_toDocument, s.cache.plain_toDocument, plain_ofString? _, plain_ofString? _,
    plain_ofString? _, List.forall_mem_nil _⟩

theorem ofDocument?_toDocument {s : Settings} (h : s.cache.Fits) : ofDocument? s.toDocument = some s := by
  have hfields : s.toDocument.structure? ["merge", "cache", "temp_root", "language", "messages_file"] =
      some [some s.merge.toDocument, some s.cache.toDocument, some (.ofString? s.tempRoot),
        some (.ofString? s.language), some (.ofString? s.messagesFile)] :=
    structure?_ofFields rfl (by decide)
  rw [ofDocument?, hfields]
  simp [orElse?, MergeSettings.ofDocument?_toDocument, CacheSettings.ofDocument?_toDocument h,
    toOption?_ofString?]

theorem fits_of_ofDocument? {d : Document} {s : Settings} (h : ofDocument? d = some s) : s.cache.Fits := by
  obtain ⟨fields, -, h⟩ := Option.bind_eq_some_iff.mp h
  split at h
  · obtain ⟨merge, -, h⟩ := Option.bind_eq_some_iff.mp h
    obtain ⟨cache, hcache, h⟩ := Option.bind_eq_some_iff.mp h
    obtain ⟨tempRoot, -, h⟩ := Option.bind_eq_some_iff.mp h
    obtain ⟨language, -, h⟩ := Option.bind_eq_some_iff.mp h
    obtain ⟨messagesFile, -, h⟩ := Option.bind_eq_some_iff.mp h
    cases h
    exact of_orElse? hcache CacheSettings.default_fits fun _ => CacheSettings.fits_of_ofDocument?
  · cases h

/-- What is read from the text of settings are those settings. -/
theorem parse?_text {s : Settings} (h : s.cache.Fits) : parse? s.text = some s := by
  rw [parse?, text, s.plain_toDocument.parse?_pretty]
  exact ofDocument?_toDocument h

theorem fits_of_parse? {cs : List Char} {s : Settings} (h : parse? cs = some s) : s.cache.Fits := by
  obtain ⟨d, -, h⟩ := Option.bind_eq_some_iff.mp h
  exact fits_of_ofDocument? h

end Settings

/-- A file that has the bytes of a text has that text. -/
theorem Content.text?_of_bytes {c : Content} {cs : List Char} (h : c.bytes = (String.ofList cs).toUTF8) :
    c.text? = some cs := by
  have hread : String.fromUTF8? (String.ofList cs).toUTF8 = some (String.ofList cs) :=
    dif_pos (String.ofList cs).isValidUTF8
  rw [text?, h, hread, Option.map_some, String.toList_ofList]

namespace Disk

/-- Whether a path leads to a file with the bytes of a text. -/
def HoldsText (d : Disk) (path : String) (cs : List Char) : Prop :=
  ∃ content, d.open? path = some content ∧ content.bytes = (String.ofList cs).toUTF8

variable {d : Disk} {path : String} {cs : List Char}

theorem HoldsText.readText (h : d.HoldsText path cs) : Cli.readText d path = .ok cs := by
  obtain ⟨content, hopen, hbytes⟩ := h
  rw [Cli.readText, hopen, Option.bind_some, Content.text?_of_bytes hbytes]

theorem HoldsText.reaches (h : d.HoldsText path cs) : d.reaches path = true := by
  obtain ⟨content, hopen, -⟩ := h
  obtain ⟨p, hp, hread⟩ := Option.bind_eq_some_iff.mp hopen
  rw [Disk.reaches, hp, Option.any_some, has, read?_eq_some_iff.mp hread]
  rfl

end Disk

open Cli

/-- Settings that come back when they were saved. -/
structure Settings.Survives (s : Settings) : Prop where
  /-- The text that they are saved as is read as them. -/
  read : parse? s.text = some s
  /-- They are loaded from every disk that holds this text. -/
  loaded : ∀ (i : Invocation) (d : Disk), d.HoldsText i.settingsPath s.text → loadSettings i d = .ok s
  /-- They are loaded from a disk that they were saved to. -/
  saved : ∀ (i : Invocation) (d : Disk), d.Takes i.settingsPath →
    ∃ d', saveSettings i s d = .ok d' ∧ loadSettings i d' = .ok s

namespace Settings

theorem loadSettings_of_holdsText {i : Invocation} {d : Disk} {cs : List Char}
    (h : d.HoldsText i.settingsPath cs) {s : Settings} (hs : parse? cs = some s) :
    loadSettings i d = .ok s := by
  rw [loadSettings, if_pos h.reaches, h.readText]
  simp [bind, Except.bind, hs]

/-- Settings are saved where there is room for a file. -/
theorem exists_saveSettings {i : Invocation} {d : Disk} (h : d.Takes i.settingsPath) (s : Settings) :
    ∃ d', saveSettings i s d = .ok d' ∧ d'.HoldsText i.settingsPath s.text := by
  obtain ⟨d₁, d', hmade, hwritten, hopen⟩ := h.exists_write? (.ofText (String.ofList s.text))
  refine ⟨d', ?_, _, hopen, rfl⟩
  simp only [saveSettings, hmade, Option.bind_some, hwritten]

theorem survives_of_fits {s : Settings} (h : s.cache.Fits) : s.Survives where
  read := parse?_text h
  loaded i d hd := loadSettings_of_holdsText hd (parse?_text h)
  saved i d hd := by
    obtain ⟨d', hsaved, hholds⟩ := exists_saveSettings hd s
    exact ⟨d', hsaved, loadSettings_of_holdsText hholds (parse?_text h)⟩

/-- What is loaded was read from a text, unless it is the default. -/
theorem fits_of_loadSettings {i : Invocation} {d : Disk} {s : Settings} (h : loadSettings i d = .ok s) :
    s.cache.Fits := by
  unfold loadSettings at h
  split at h
  · cases hread : readText d i.settingsPath with
    | error e => simp [hread, bind, Except.bind] at h
    | ok cs =>
      cases hparse : parse? cs with
      | none => simp [hread, hparse, bind, Except.bind] at h
      | some t =>
        obtain rfl : t = s := by simpa [hread, hparse, bind, Except.bind] using h
        exact fits_of_parse? hparse
  · cases h
    exact CacheSettings.default_fits

/-- Settings come back when they were saved if and only if their counts are words of 64 bits. So do all that
are read from a text, whatever it leaves out, names besides, or orders otherwise, and so do all that a program
runs with. -/
theorem survive_saving :
    (∀ s : Settings, s.Survives ↔ s.cache.Fits) ∧
    (∀ (cs : List Char) (s : Settings), parse? cs = some s → s.Survives) ∧
    (∀ (i : Invocation) (d : Disk) (s : Settings), loadSettings i d = .ok s → s.Survives) :=
  ⟨fun _ => ⟨fun h => fits_of_parse? h.read, survives_of_fits⟩,
    fun _ _ h => survives_of_fits (fits_of_parse? h),
    fun _ _ _ h => survives_of_fits (fits_of_loadSettings h)⟩

/-- Settings as an operator may write them: a structure as a list that ends early, and records with their
fields in another order, with some left out and with one that is unknown. -/
def written : List Char :=
  ("\x7b \"language\": \"\\u007Ah\", \"cache\": [3], \"note\": [-0.5e3, \x7b\x7d],\n" ++
    "  \"merge\": \x7b \"xml_extensions\": [\"u\\u00e9\", \"\\\"\\t\"],\n" ++
    "    \"path_correction\": \x7b\"keep\":null\x7d \x7d \x7d").toList

theorem survive_saving_as_written :
    ∃ s, parse? written = some s ∧ s.Survives ∧
      s = ⟨⟨true, .keep, ["scr", "def", "loot"], ["ué", "\"\t"]⟩, ⟨3, 600⟩, none, some "zh", none⟩ ∧
      ∃ d', saveSettings ⟨"data", none, false, .setup⟩ s Disk.empty = .ok d' ∧
        loadSettings ⟨"data", none, false, .setup⟩ d' = .ok s := by
  have hparse : parse? written =
      some ⟨⟨true, .keep, ["scr", "def", "loot"], ["ué", "\"\t"]⟩, ⟨3, 600⟩, none, some "zh", none⟩ := by
    decide +kernel
  have hsurvives := survive_saving.2.1 written _ hparse
  have htakes : Disk.empty.Takes "data/settings.json" := ⟨⟨_, rfl, by decide, by decide⟩, by decide⟩
  exact ⟨_, hparse, hsurvives, rfl, hsurvives.saved ⟨"data", none, false, .setup⟩ Disk.empty htakes⟩

end Settings

end ModWeave
