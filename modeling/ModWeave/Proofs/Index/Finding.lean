import Mathlib.Data.String.Basic
import ModWeave.Proofs.Index.Register
import ModWeave.Run.Collect

/-!
What an index finds for a name. An entry of that very name comes first, then of the names that differ in case only the
first by its bytes, then the name that was registered last with the file name. What is suggested is in the index, so
that a name is corrected only once.
-/
namespace ModWeave

section Bytes

variable {m n : ℕ} {c d : Char}

private theorem div_lt_or_mod_lt (b : ℕ) (h : m < n) : m / b < n / b ∨ m / b = n / b ∧ m % b < n % b := by
  obtain hlt | heq := Nat.lt_or_eq_of_le (Nat.div_le_div_right (Nat.le_of_lt h) : m / b ≤ n / b)
  · exact .inl hlt
  · have hm := Nat.div_add_mod m b
    have hn := Nat.div_add_mod n b
    rw [heq] at hm
    exact .inr ⟨heq, by omega⟩

/-- Of two numbers the smaller one has the smaller digit where their digits first differ. -/
private theorem digits_lt (h : m < n) :
    m / 64 / 64 / 64 < n / 64 / 64 / 64 ∨ m / 64 / 64 / 64 = n / 64 / 64 / 64 ∧
      (m / 64 / 64 % 64 < n / 64 / 64 % 64 ∨ m / 64 / 64 % 64 = n / 64 / 64 % 64 ∧
        (m / 64 % 64 < n / 64 % 64 ∨ m / 64 % 64 = n / 64 % 64 ∧ m % 64 < n % 64)) := by
  obtain h | ⟨heq, hlow⟩ := div_lt_or_mod_lt 64 h
  · obtain h | ⟨heq, hlow⟩ := div_lt_or_mod_lt 64 h
    · obtain h | ⟨heq, hlow⟩ := div_lt_or_mod_lt 64 h
      · exact .inl h
      · exact .inr ⟨heq, .inl hlow⟩
    · exact .inr ⟨congrArg (· / 64) heq, .inr ⟨congrArg (· % 64) heq, .inl hlow⟩⟩
  · exact .inr ⟨congrArg (· / 64 / 64) heq, .inr ⟨congrArg (· / 64 % 64) heq, .inr ⟨congrArg (· % 64) heq, hlow⟩⟩⟩

/-- Of two characters the one before the other is before it by its bytes as well, whatever follows them. -/
theorem utf8EncodeChar_append_lt (h : c < d) (xs ys : List UInt8) :
    String.utf8EncodeChar c ++ xs < String.utf8EncodeChar d ++ ys := by
  have hval : c.val.toNat < d.val.toNat := h
  have hd : d.val.toNat < 1114112 := by
    obtain hd | ⟨-, hd⟩ := d.valid
    · exact Nat.lt_trans hd (by decide)
    · exact hd
  unfold String.utf8EncodeChar
  dsimp only
  generalize c.val.toNat = m, d.val.toNat = n at *
  by_cases hm : m ≤ 65535
  · split_ifs <;>
      simp only [List.cons_append, List.nil_append, List.cons_lt_cons_iff, UInt8.lt_iff_toNat_lt, ← UInt8.toNat_inj,
        UInt8.toNat_ofNat'] <;>
      omega
  -- Both have four bytes, too many digits for comparing them all at once.
  · have hdigits := digits_lt hval
    simp only [Nat.div_div_eq_div_mul, Nat.reduceMul] at hdigits
    simp only [if_neg (by omega : ¬m ≤ 127), if_neg (by omega : ¬m ≤ 2047), if_neg hm, if_neg (by omega : ¬n ≤ 127),
      if_neg (by omega : ¬n ≤ 2047), if_neg (by omega : ¬n ≤ 65535), List.cons_append, List.nil_append,
      List.cons_lt_cons_iff, UInt8.lt_iff_toNat_lt, ← UInt8.toNat_inj, UInt8.toNat_ofNat']
    simp (disch := omega) only [Nat.mod_eq_of_lt]
    omega

private theorem flatMap_utf8EncodeChar_lt {cs ds : List Char} (h : cs < ds) :
    cs.flatMap String.utf8EncodeChar < ds.flatMap String.utf8EncodeChar := by
  induction cs generalizing ds with
  | nil =>
    cases ds with
    | nil => exact absurd h (List.lt_irrefl _)
    | cons d ds =>
      obtain ⟨b, bytes, hb⟩ := List.exists_cons_of_ne_nil (String.utf8EncodeChar_ne_nil (c := d))
      simp [hb]
  | cons c cs ih =>
    cases ds with
    | nil => exact absurd h (List.not_lt_nil _)
    | cons d ds =>
      rw [List.flatMap_cons, List.flatMap_cons]
      obtain hlt | ⟨rfl, hlt⟩ := List.cons_lt_cons_iff.1 h
      · exact utf8EncodeChar_append_lt hlt _ _
      · exact List.append_left_lt (ih hlt)

/-- The bytes of a text. -/
def Text.utf8Bytes (text : String) : List UInt8 := text.toUTF8.data.toList

theorem Text.utf8Bytes_eq (text : String) : utf8Bytes text = text.toList.flatMap String.utf8EncodeChar := by
  rw [utf8Bytes, ← String.ofList_toList (s := text), String.toUTF8_eq_toByteArray, String.toByteArray_ofList,
    String.toList_ofList]
  exact congrArg Array.toList List.data_toByteArray

/-- Texts are in the order of their bytes. -/
theorem Text.utf8Bytes_le {a b : String} (h : a ≤ b) : utf8Bytes a ≤ utf8Bytes b := by
  obtain hlt | rfl := lt_or_eq_of_le h
  · rw [utf8Bytes_eq, utf8Bytes_eq]
    exact List.le_of_lt (flatMap_utf8EncodeChar_lt (String.lt_iff.1 hlt))
  · exact List.le_refl _

theorem Text.le_of_utf8Bytes_le {a b : String} (h : utf8Bytes a ≤ utf8Bytes b) : a ≤ b := by
  by_contra hlt
  rw [utf8Bytes_eq, utf8Bytes_eq] at h
  exact List.not_lt.2 h (flatMap_utf8EncodeChar_lt (String.lt_iff.1 (not_le.1 hlt)))

end Bytes

namespace Index

open Text (lowercase utf8Bytes)

/-- What a name leads to once the entries are registered one after the other. -/
inductive Finds (es : List Entry) (name : String) : PathLookup → Prop
  | exact (hkey : ∃ e ∈ es, e.name = name) : Finds es name .exact
  | inOtherCase {key : String} (hnot : ∀ e ∈ es, e.name ≠ name) (hkey : ∃ e ∈ es, e.name = key)
      (hcase : lowercase key = lowercase name)
      (hfirst : ∀ e ∈ es, lowercase e.name = lowercase name → utf8Bytes key ≤ utf8Bytes e.name) :
      Finds es name (.suggested key)
  | byFileName {before after : List Entry} {last : Entry} (hnot : ∀ e ∈ es, lowercase e.name ≠ lowercase name)
      (hes : es = before ++ last :: after) (hbase : last.fileName = lowercase (EntryName.base name))
      (hlast : ∀ e ∈ after, e.fileName ≠ lowercase (EntryName.base name)) : Finds es name (.suggested last.name)
  | unknown (hnot : ∀ e ∈ es, lowercase e.name ≠ lowercase name)
      (hbase : ∀ e ∈ es, e.fileName ≠ lowercase (EntryName.base name)) : Finds es name .unknown

variable {i : Index} {es : List Entry} {name key : String}

/-- The keys of an index are the names that were registered. -/
theorem Registers.isSome_get?_iff (h : i.Registers es) : (i.get? name).isSome ↔ ∃ e ∈ es, e.name = name := by
  rw [h.get?, ← not_iff_not, Bool.not_eq_true, Option.isSome_eq_false_iff, Option.isNone_iff_eq_none,
    findRev?_eq_none_iff]
  simp

theorem Registers.mem_keys_iff (h : i.Registers es) : key ∈ i.entries.keys ↔ ∃ e ∈ es, e.name = key := by
  rw [Std.TreeMap.mem_keys, Std.TreeMap.mem_iff_isSome_getElem?]
  exact h.isSome_get?_iff

/-- The first key of a kind comes before all others of the kind. -/
theorem keys_find?_eq_some {p : String → Bool} (h : i.entries.keys.find? p = some key) :
    p key = true ∧ key ∈ i.entries.keys ∧ ∀ k ∈ i.entries.keys, p k = true → key ≤ k := by
  obtain ⟨hp, before, after, hkeys, hbefore⟩ := List.find?_eq_some_iff_append.1 h
  have hsorted : (before ++ key :: after).Pairwise (compare · · = .lt) := hkeys ▸ Std.TreeMap.ordered_keys
  refine ⟨hp, List.mem_of_find?_eq_some h, fun k hk hpk => ?_⟩
  rw [hkeys, List.mem_append, List.mem_cons] at hk
  obtain hk | rfl | hk := hk
  · exact absurd hpk (by simpa using hbefore k hk)
  · exact le_refl k
  · have htail := (List.pairwise_append.1 hsorted).2.1
    exact le_of_lt (compare_lt_iff_lt.1 (List.rel_of_pairwise_cons htail hk))

theorem Registers.finds_lookup (h : i.Registers es) : Finds es name (i.lookup name) := by
  unfold Index.lookup
  split_ifs with hkey
  · exact .exact (h.isSome_get?_iff.1 hkey)
  have hnot : ∀ e ∈ es, e.name ≠ name := by simpa [h.isSome_get?_iff] using hkey
  cases hfind : i.entries.keys.find? fun k => lowercase k = lowercase name with
  | some k =>
    obtain ⟨hcase, hmem, hfirst⟩ := keys_find?_eq_some hfind
    refine .inOtherCase hnot (h.mem_keys_iff.1 hmem) (by simpa using hcase) fun e he hsame => ?_
    exact Text.utf8Bytes_le (hfirst e.name (h.mem_keys_iff.2 ⟨e, he, rfl⟩) (by simpa using hsame))
  | none =>
    have hcase : ∀ e ∈ es, lowercase e.name ≠ lowercase name := fun e he => by
      simpa using List.find?_eq_none.1 hfind e.name (h.mem_keys_iff.2 ⟨e, he, rfl⟩)
    rw [h.findByFileName?]
    cases hlast : es.findRev? (·.fileName = lowercase (EntryName.base name)) with
    | some e =>
      obtain ⟨hbase, before, after, hes, hafter⟩ := findRev?_eq_some_iff.1 hlast
      exact .byFileName hcase hes (by simpa using hbase) (by simpa using hafter)
    | none => exact .unknown hcase (by simpa using findRev?_eq_none_iff.1 hlast)

theorem Registers.get?_eq_none (h : i.Registers es) (hnot : ∀ e ∈ es, e.name ≠ name) :
    (i.get? name).isSome = false := by
  rw [← Bool.not_eq_true, h.isSome_get?_iff]
  rintro ⟨e, he, hname⟩
  exact hnot e he hname

theorem Registers.keys_find?_eq_none (h : i.Registers es) (hnot : ∀ e ∈ es, lowercase e.name ≠ lowercase name) :
    (i.entries.keys.find? fun k => lowercase k = lowercase name) = none := by
  rw [List.find?_eq_none]
  intro k hk
  obtain ⟨e, he, rfl⟩ := h.mem_keys_iff.1 hk
  simpa using hnot e he

theorem Registers.lookup_of_finds (h : i.Registers es) {r : PathLookup} (hr : Finds es name r) :
    i.lookup name = r := by
  unfold Index.lookup
  cases hr with
  | exact hkey => rw [if_pos (h.isSome_get?_iff.2 hkey)]
  | @inOtherCase key hnot hkey hcase hfirst =>
    rw [h.get?_eq_none hnot, if_neg Bool.false_ne_true]
    have hmem := h.mem_keys_iff.2 hkey
    have hfound : (i.entries.keys.find? fun k => lowercase k = lowercase name).isSome :=
      List.find?_isSome.2 ⟨key, hmem, decide_eq_true hcase⟩
    obtain ⟨k, hk⟩ := Option.isSome_iff_exists.1 hfound
    obtain ⟨hkcase, hkmem, hkfirst⟩ := keys_find?_eq_some hk
    obtain ⟨e, he, rfl⟩ := h.mem_keys_iff.1 hkmem
    rw [hk, le_antisymm (hkfirst key hmem (decide_eq_true hcase))
      (Text.le_of_utf8Bytes_le (hfirst e he (by simpa using hkcase)))]
  | @byFileName before after last hnot hes hbase hlast =>
    have hfile : es.findRev? (·.fileName = lowercase (EntryName.base name)) = some last :=
      findRev?_eq_some_iff.2 ⟨decide_eq_true hbase, before, after, hes, by simpa using hlast⟩
    rw [h.get?_eq_none fun e he hname => hnot e he (congrArg lowercase hname), if_neg Bool.false_ne_true,
      h.keys_find?_eq_none hnot, h.findByFileName?, hfile]
  | unknown hnot hbase =>
    have hfile : es.findRev? (·.fileName = lowercase (EntryName.base name)) = none :=
      findRev?_eq_none_iff.2 (by simpa using hbase)
    rw [h.get?_eq_none fun e he hname => hnot e he (congrArg lowercase hname), if_neg Bool.false_ne_true,
      h.keys_find?_eq_none hnot, h.findByFileName?, hfile]

theorem Registers.lookup_eq_iff (h : i.Registers es) {r : PathLookup} : i.lookup name = r ↔ Finds es name r :=
  ⟨fun hr => hr ▸ h.finds_lookup, h.lookup_of_finds⟩

/-- What is suggested was registered. -/
theorem Finds.registered (h : Finds es name (.suggested key)) : ∃ e ∈ es, e.name = key := by
  cases h with
  | inOtherCase _ hkey _ _ => exact hkey
  | byFileName _ hes _ _ => exact ⟨_, by simp [hes], rfl⟩

theorem Registers.lookup_suggested (h : i.Registers es) (hs : i.lookup name = .suggested key) :
    (i.get? key).isSome ∧ i.lookup key = .exact :=
  have hkey := (h.lookup_eq_iff.1 hs).registered
  ⟨h.isSome_get?_iff.2 hkey, h.lookup_of_finds (.exact hkey)⟩

end Index

open Index in
/-- A name that was corrected stays as it is. -/
theorem PathCorrection.smart_correct {i : Index} {es : List Entry} (h : i.Registers es) (name : String) :
    (smart.correct i (smart.correct i name).1).1 = (smart.correct i name).1 := by
  cases hl : i.lookup name with
  | exact => simp [correct, hl]
  | unknown => simp [correct, hl]
  | suggested key => simp [correct, hl, (h.lookup_suggested hl).2]

namespace Index

/-- Once the entries are registered one after the other, every name leads to what it is to lead to, what is suggested
is in the index, and correcting a name a second time changes nothing. -/
theorem lookup_of_registered (source : String) (es : List Entry) :
    let i := es.foldl register (new source)
    (∀ name, (i.get? name).isSome ↔ ∃ e ∈ es, e.name = name) ∧
    (∀ name r, i.lookup name = r ↔ Finds es name r) ∧
    (∀ name key, i.lookup name = .suggested key → (i.get? key).isSome ∧ i.lookup key = .exact) ∧
    ∀ name, (PathCorrection.smart.correct i (PathCorrection.smart.correct i name).1).1 =
      (PathCorrection.smart.correct i name).1 := by
  have h : (es.foldl register (new source)).Registers es := registers_foldl (registers_new source) es
  exact ⟨fun _ => h.isSome_get?_iff, fun _ _ => h.lookup_eq_iff, fun _ _ => h.lookup_suggested,
    PathCorrection.smart_correct h⟩

end Index
end ModWeave
