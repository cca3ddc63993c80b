import ModWeave.Index.Basic
import ModWeave.Proofs.Lists

/-!
Indexes as folds. Registering entries one after the other keeps, of those with one name, the last;
a file name leads to the entry registered last under it, and every entry that comes under a name
already there is told as a duplicate.
-/
namespace ModWeave

/-- A name with the containers down to where it stands. -/
abbrev NamedChain := String × List String

/-- One duplicate for each name that is there before, with the containers of the last one there. The
names of before are given latest first. -/
def repeatsAfter (before : List NamedChain) : List NamedChain → List Duplicate
  | [] => []
  | file :: rest =>
    ((before.find? (·.1 = file.1)).map fun old => ⟨file.1, old.2, file.2⟩).toList ++
      repeatsAfter (file :: before) rest

theorem repeatsAfter_concat (before files : List NamedChain) (file : NamedChain) :
    repeatsAfter before (files ++ [file]) = repeatsAfter before files ++
      (((files.reverse ++ before).find? (·.1 = file.1)).map fun old =>
        ⟨file.1, old.2, file.2⟩).toList := by
  induction files generalizing before with
  | nil => simp [repeatsAfter]
  | cons f files ih => simp [repeatsAfter, ih]

/-- No name comes again. -/
theorem repeatsAfter_eq_nil {before files : List NamedChain} (h : ((before ++ files).map Prod.fst).Nodup) :
    repeatsAfter before files = [] := by
  induction files generalizing before with
  | nil => rfl
  | cons file rest ih =>
    have hperm : (before ++ file :: rest).Perm (file :: before ++ rest) := List.perm_middle
    have hnodup := (hperm.map Prod.fst).nodup h
    have hnone : before.find? (·.1 = file.1) = none := by
      rw [List.find?_eq_none]
      intro x hx
      rw [decide_eq_true_eq]
      intro he
      rw [List.cons_append, List.map_cons, List.nodup_cons] at hnodup
      exact hnodup.1 (he ▸ List.mem_map_of_mem (List.mem_append_left _ hx))
    rw [repeatsAfter, hnone, ih hnodup]
    rfl

def Entry.namedChain (e : Entry) : NamedChain := (e.name, e.provenance)

namespace Index

theorem get?_register (i : Index) (e : Entry) (name : String) :
    (i.register e).get? name = if e.name = name then some e else i.get? name := by
  simp [get?, register, Std.TreeMap.getElem?_insert]

/-- An index with all that registering the entries leaves. -/
structure Registers (i : Index) (es : List Entry) : Prop where
  entries : ∀ name : String, i.entries[name]? = es.findRev? (·.name = name)
  byFileName : ∀ fileName : String,
    i.byFileName[fileName]? = (es.findRev? (·.fileName = fileName)).map Entry.name
  duplicates : i.duplicates = repeatsAfter [] (es.map Entry.namedChain)

theorem registers_new (source : String) : (new source).Registers [] where
  entries name := by simp [new]
  byFileName fileName := by simp [new]
  duplicates := rfl

theorem Registers.register {i : Index} {es : List Entry} (h : i.Registers es) (e : Entry) :
    (i.register e).Registers (es ++ [e]) where
  entries name := by
    simp only [Index.register, Std.TreeMap.getElem?_insert, findRev?_concat, h.entries]
    simp
  byFileName fileName := by
    simp only [Index.register, Std.TreeMap.getElem?_insert, findRev?_concat, h.byFileName]
    by_cases hname : e.fileName = fileName <;> simp [hname]
  duplicates := by
    have hold : ((es.map Entry.namedChain).reverse.find? (·.1 = e.name)) =
        i.entries[e.name]?.map Entry.namedChain := by
      rw [h.entries, ← List.findRev?_eq_find?_reverse, findRev?_map]
      rfl
    have hcons : (i.register e).duplicates = i.duplicates ++
        ((i.entries[e.name]?.map Entry.namedChain).map fun old =>
          ⟨e.name, old.2, e.provenance⟩).toList := by
      simp only [Index.register, Index.duplicates]
      cases i.entries[e.name]? <;> simp [Entry.namedChain]
    rw [hcons, h.duplicates, List.map_append, List.map_singleton, repeatsAfter_concat,
      List.append_nil, ← hold]
    rfl

theorem registers_foldl {i : Index} {es : List Entry} (h : i.Registers es) (more : List Entry) :
    (more.foldl Index.register i).Registers (es ++ more) := by
  induction more generalizing i es with
  | nil => simpa using h
  | cons e more ih => simpa using ih (h.register e)

/-- The entry of a name is the one registered last under it. -/
theorem Registers.get? {i : Index} {es : List Entry} (h : i.Registers es) (name : String) :
    i.get? name = es.findRev? (·.name = name) := h.entries name

/-- A file name in any case leads to the entry registered last under it. -/
theorem Registers.findByFileName? {i : Index} {es : List Entry} (h : i.Registers es)
    (fileName : String) :
    i.findByFileName? fileName = es.findRev? (·.fileName = Text.lowercase fileName) := by
  rw [Index.findByFileName?, h.byFileName]
  obtain hlast | ⟨e, hlast⟩ :=
    (es.findRev? (·.fileName = Text.lowercase fileName)).eq_none_or_eq_some
  · rw [hlast, Option.map_none, Option.bind_none]
  have hfile : e.fileName = Text.lowercase fileName := by
    simpa using (findRev?_eq_some_iff.1 hlast).1
  rw [hlast, Option.map_some, Option.bind_some, h.get?]
  refine findRev?_of_imp hlast (fun y hy => ?_) (decide_eq_true rfl)
  rw [decide_eq_true_eq] at hy ⊢
  rw [← hfile, Entry.fileName, hy, Entry.fileName]

theorem toList_eq_map_snd (i : Index) : i.toList = i.entries.toList.map Prod.snd := by
  have hfold : i.toList = i.entries.foldr (fun _ e es => e :: es) [] := rfl
  rw [hfold, Std.TreeMap.foldr_eq_foldr_toList]
  induction i.entries.toList with
  | nil => rfl
  | cons x xs ih => exact congrArg (x.2 :: ·) ih

/-- Each entry stands under its own name. -/
theorem Registers.name_of_get? {i : Index} {es : List Entry} (h : i.Registers es) {name : String}
    {e : Entry} (he : i.get? name = some e) : e.name = name := by
  rw [h.get?] at he
  simpa using (findRev?_eq_some_iff.1 he).1

theorem Registers.mem_toList_iff {i : Index} {es : List Entry} (h : i.Registers es) {e : Entry} :
    e ∈ i.toList ↔ i.get? e.name = some e := by
  rw [toList_eq_map_snd, List.mem_map]
  constructor
  · rintro ⟨⟨name, f⟩, hmem, rfl⟩
    have hget : i.get? name = some f := Std.TreeMap.mem_toList_iff_getElem?_eq_some.1 hmem
    rwa [h.name_of_get? hget]
  · intro hget
    exact ⟨(e.name, e), Std.TreeMap.mem_toList_iff_getElem?_eq_some.2 hget, rfl⟩

/-- No two entries have one name. -/
theorem Registers.nodup_names {i : Index} {es : List Entry} (h : i.Registers es) :
    (i.toList.map Entry.name).Nodup := by
  have hkeys : i.toList.map Entry.name = i.entries.keys := by
    rw [toList_eq_map_snd, List.map_map, ← Std.TreeMap.map_fst_toList_eq_keys]
    refine List.map_congr_left fun x hx => ?_
    exact h.name_of_get? (Std.TreeMap.mem_toList_iff_getElem?_eq_some.1 hx)
  rw [hkeys]
  exact Std.TreeMap.nodup_keys

end Index
end ModWeave
