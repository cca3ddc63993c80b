import Mathlib.Data.List.Nodup
import ModWeave.Proofs.Index.Register
import ModWeave.Run.Collect

/-!
Collecting the files of mods. Every file that lies on the disk gets to one path of the output, and the
files at a path are in the order of their mods. A mod is at a path twice only where the base suggests
that path for a file of the mod beside another one that gets there.
-/
namespace ModWeave

/-- Where the file of an entry lies, if it has one of its own. -/
def Entry.file? (e : Entry) : Option Path :=
  match e.location with
  | .extracted path => some path
  | .packed .. => none

/-- The files of an archive that lie on the disk, each under the name of its entry. -/
def Index.extracted (i : Index) : List (String × Path) :=
  i.toList.filterMap fun e => e.file?.map (e.name, ·)

namespace Index.Registers

variable {i : Index} {es : List Entry}

theorem mem_extracted_iff (h : i.Registers es) {name : String} {path : Path} :
    (name, path) ∈ i.extracted ↔ ∃ e, i.get? name = some e ∧ e.location = .extracted path := by
  have hfile (e : Entry) : e.file? = some path ↔ e.location = .extracted path := by
    unfold Entry.file?
    split <;> simp_all
  simp only [extracted, List.mem_filterMap, Option.map_eq_some_iff, Prod.mk.injEq]
  constructor
  · rintro ⟨e, he, path, hpath, rfl, rfl⟩
    exact ⟨e, h.mem_toList_iff.1 he, (hfile e).1 hpath⟩
  · rintro ⟨e, he, hpath⟩
    obtain rfl := h.name_of_get? he
    exact ⟨e, h.mem_toList_iff.2 he, path, (hfile e).2 hpath, rfl, rfl⟩

theorem pairwise_extracted (h : i.Registers es) : i.extracted.Pairwise fun x y => x.1 ≠ y.1 := by
  have hnames := h.nodup_names
  rw [List.Nodup, List.pairwise_map] at hnames
  refine List.pairwise_filterMap.2 (hnames.imp fun hne x hx y hy => ?_)
  obtain ⟨path, -, rfl⟩ := Option.map_eq_some_iff.1 hx
  obtain ⟨path', -, rfl⟩ := Option.map_eq_some_iff.1 hy
  exact hne

end Index.Registers

namespace PathCorrection

/-- The files of a mod that get to a path of the output. -/
def sentTo (p : PathCorrection) (base mod : Index) (target : String) : List (String × Path) :=
  mod.extracted.filter fun x => (p.correct base x.1).1 = target

/-- A file gets to another path than its name only where the base suggests that path. -/
theorem lookup_of_correct {p : PathCorrection} {base : Index} {name target : String}
    (h : (p.correct base name).1 = target) (hne : name ≠ target) :
    p = .smart ∧ base.lookup name = .suggested target := by
  unfold correct at h
  split at h
  · exact absurd h hne
  · exact absurd h hne
  · next canonical hlookup =>
    cases p with
    | smart => exact ⟨rfl, hlookup.trans (congrArg _ h)⟩
    | keep => exact absurd h hne

end PathCorrection

namespace Collection

/-- The files of a mod that get to a path, as a collection lists them. -/
def sources (p : PathCorrection) (base : Index) (target : String) (mod : Index) : List ModFile :=
  (p.sentTo base mod target).map fun x => ⟨archiveName mod.source, x.2⟩

/-- The file that an entry adds to a path. -/
def added? (p : PathCorrection) (base : Index) (target source : String) (e : Entry) : Option ModFile :=
  e.file?.bind fun path => if (p.correct base e.name).1 = target then some ⟨source, path⟩ else none

/-- A collection that lists some files for each path, and has no path without files. -/
def Lists (so : Collection) (files : String → List ModFile) : Prop :=
  ∀ target, so[target]? = if files target = [] then none else some (files target)

variable {so : Collection} {files : String → List ModFile} {p : PathCorrection} {base : Index}

theorem lists_empty : Lists ∅ fun _ => [] := fun target => by simp

theorem Lists.getD (h : so.Lists files) (target : String) : so.getD target [] = files target := by
  rw [Std.TreeMap.getD_eq_getD_getElem?, h]
  split <;> simp_all

theorem Lists.add (h : so.Lists files) (notices : List Notice) (source : String) (e : Entry) :
    (Collection.add p base source (so, notices) e).1.Lists fun target =>
      files target ++ (added? p base target source e).toList := by
  intro target
  unfold Collection.add added? Entry.file?
  cases e.location with
  | packed => simpa using h target
  | extracted path =>
    simp only [Std.TreeMap.getElem?_insert, h.getD, h target]
    by_cases htarget : (p.correct base e.name).1 = target <;> simp [htarget]

theorem Lists.congr {files' : String → List ModFile} (h : so.Lists files)
    (he : ∀ target, files target = files' target) : so.Lists files' := by
  rwa [← funext he]

theorem Lists.addAll (h : so.Lists files) (notices : List Notice) (source : String) (es : List Entry) :
    (es.foldl (Collection.add p base source) (so, notices)).1.Lists fun target =>
      files target ++ es.filterMap (added? p base target source) := by
  induction es generalizing so notices files with
  | nil => exact h.congr fun target => (List.append_nil _).symm
  | cons e es ih =>
    refine (ih (h.add notices source e) _).congr fun target => ?_
    rw [List.append_assoc, List.filterMap_cons]
    cases added? p base target source e <;> rfl

theorem Lists.addMods (h : so.Lists files) (notices : List Notice) (mods : List Index) :
    (mods.foldl (addMod p base) (so, notices)).1.Lists fun target => files target ++
      mods.flatMap fun mod => mod.toList.filterMap (added? p base target (archiveName mod.source)) := by
  induction mods generalizing so notices files with
  | nil => exact h.congr fun target => (List.append_nil _).symm
  | cons mod mods ih =>
    refine (ih (h.addAll notices (archiveName mod.source) mod.toList) _).congr fun target => ?_
    rw [List.append_assoc, List.flatMap_cons]

theorem filterMap_added (p : PathCorrection) (base : Index) (target : String) (mod : Index) :
    mod.toList.filterMap (added? p base target (archiveName mod.source)) = sources p base target mod := by
  rw [sources, PathCorrection.sentTo, Index.extracted, List.filter_filterMap, List.map_filterMap]
  congr 1
  funext e
  unfold added?
  cases e.file? with
  | none => rfl
  | some path => by_cases h : (p.correct base e.name).1 = target <;> simp [h, Option.filter]

theorem lists_ofMods (p : PathCorrection) (base : Index) (mods : List Index) :
    (ofMods p base mods).1.Lists fun target => mods.flatMap (sources p base target) := by
  refine (lists_empty.addMods [] mods).congr fun target => ?_
  simp only [filterMap_added, List.nil_append]

/-- What a collection lists lies on the disk as a file of one of the mods. -/
theorem exists_extracted {mods : List Index} {f : String × List ModFile} {copy : ModFile}
    (hf : f ∈ (ofMods p base mods).1.toList) (hcopy : copy ∈ f.2) :
    ∃ mod ∈ mods, ∃ name, (name, copy.path) ∈ mod.extracted := by
  have hget := Std.TreeMap.mem_toList_iff_getElem?_eq_some.1 hf
  rw [lists_ofMods p base mods f.1] at hget
  split at hget
  · cases hget
  · rw [← Option.some.inj hget] at hcopy
    obtain ⟨mod, hmod, hcopy⟩ := List.mem_flatMap.1 hcopy
    obtain ⟨x, hx, rfl⟩ := List.mem_map.1 hcopy
    exact ⟨mod, hmod, x.1, List.mem_of_mem_filter hx⟩

end Collection

namespace PathCorrection

variable {p : PathCorrection} {base mod : Index} {es : List Entry}

/-- A file is counted at one path. -/
theorem count_sentTo (h : mod.Registers es) {x : String × Path} (hx : x ∈ mod.extracted) (target : String) :
    (p.sentTo base mod target).count x = if target = (p.correct base x.1).1 then 1 else 0 := by
  have hnodup : mod.extracted.Nodup := by
    refine h.pairwise_extracted.imp fun hne heq => hne ?_
    rw [heq]
  by_cases htarget : (p.correct base x.1).1 = target
  · let sent (y : String × Path) : Bool := (p.correct base y.1).1 = target
    have hkept : (mod.extracted.filter sent).count x = mod.extracted.count x :=
      List.count_filter (decide_eq_true htarget)
    rw [sentTo, hkept, List.count_eq_one_of_mem hnodup hx, if_pos htarget.symm]
  · rw [if_neg (Ne.symm htarget), List.count_eq_zero]
    exact fun hmem => htarget (of_decide_eq_true (List.mem_filter.1 hmem).2)

/-- Two files of a mod are sent to one path only by a suggestion. -/
theorem sentTo_of_two (h : mod.Registers es) {target : String}
    (htwo : 1 < (p.sentTo base mod target).length) :
    p = .smart ∧ ∃ x ∈ p.sentTo base mod target, base.lookup x.1 = .suggested target := by
  have hnames : (p.sentTo base mod target).Pairwise fun x y => x.1 ≠ y.1 :=
    h.pairwise_extracted.sublist List.filter_sublist
  have hsent : ∀ x ∈ p.sentTo base mod target, (p.correct base x.1).1 = target :=
    fun x hx => of_decide_eq_true (List.mem_filter.1 hx).2
  match hlist : p.sentTo base mod target with
  | [] | [_] => simp [hlist] at htwo
  | x :: y :: rest =>
    rw [hlist] at hnames hsent
    have hne : x.1 ≠ y.1 := (List.pairwise_cons.1 hnames).1 y (by simp)
    by_cases hx : x.1 = target
    · obtain ⟨hp, hlookup⟩ := lookup_of_correct (hsent y (by simp)) (hx ▸ hne.symm)
      exact ⟨hp, y, by simp, hlookup⟩
    · obtain ⟨hp, hlookup⟩ := lookup_of_correct (hsent x (by simp)) hx
      exact ⟨hp, x, by simp, hlookup⟩

end PathCorrection

/-- **Each file of a mod gets to one path.** What a collection lists for a path are the files that get
there, those of each mod together and in the order of the mods; an entry with a file is counted once, at
its own path. Of one mod a path has one file at most, unless the base suggests the path for one of
several. -/
theorem Collection.ofMods_keeps_files {p : PathCorrection} {base : Index} {mods : List Index}
    (h : ∀ mod ∈ mods, ∃ es, mod.Registers es) :
    (∀ target, (ofMods p base mods).1[target]? =
      if mods.flatMap (sources p base target) = [] then none
      else some (mods.flatMap (sources p base target))) ∧
    ∀ mod ∈ mods,
      (∀ name e path, mod.get? name = some e → e.location = .extracted path → ∀ target,
        (p.sentTo base mod target).count (name, path) =
          if target = (p.correct base name).1 then 1 else 0) ∧
      ∀ target, (sources p base target mod).length ≤ 1 ∨
        p = .smart ∧ ∃ x ∈ p.sentTo base mod target, base.lookup x.1 = .suggested target := by
  refine ⟨lists_ofMods p base mods, fun mod hmod => ?_⟩
  obtain ⟨es, hes⟩ := h mod hmod
  refine ⟨fun name e path he hpath target => ?_, fun target => ?_⟩
  · exact PathCorrection.count_sentTo hes (hes.mem_extracted_iff.2 ⟨e, he, hpath⟩) target
  · rw [sources, List.length_map]
    exact (Nat.lt_or_ge 1 _).symm.imp_right (PathCorrection.sentTo_of_two hes)

section Case

/-- An archive that holds one file on the disk, or some. -/
private def archive (source : String) (files : List (String × Path)) : Index :=
  (files.map fun x => ⟨x.1, [source], .extracted x.2, 1⟩).foldl Index.register (.new source)

theorem Collection.ofMods_keeps_files_in_other_case :
    let base := archive "game.zip" [("data/a.txt", ["game"])]
    let mods := [archive "m.zip" [("DATA/a.txt", ["one"]), ("b.txt", ["two"])],
      archive "n.zip" [("data/a.txt", ["three"])]]
    (∀ mod ∈ mods, ∃ es, mod.Registers es) ∧
      (ofMods .smart base mods).1["data/a.txt"]? = some [⟨"m.zip", ["one"]⟩, ⟨"n.zip", ["three"]⟩] ∧
      (ofMods .smart base mods).1["b.txt"]? = some [⟨"m.zip", ["two"]⟩] := by
  intro base mods
  have hmods : ∀ mod ∈ mods, ∃ es, mod.Registers es := by
    simp only [mods, archive, List.forall_mem_cons, List.not_mem_nil, IsEmpty.forall_iff, implies_true,
      and_true]
    exact ⟨⟨_, Index.registers_foldl (Index.registers_new _) _⟩,
      ⟨_, Index.registers_foldl (Index.registers_new _) _⟩⟩
  obtain ⟨hlists, -⟩ := @ofMods_keeps_files .smart base mods hmods
  refine ⟨hmods, (hlists "data/a.txt").trans ?_, (hlists "b.txt").trans ?_⟩
  · decide +kernel
  · decide +kernel

/-- Two files of one mod get to one path when the base suggests it for the one that is elsewhere. -/
theorem Collection.ofMods_confuses_files :
    let base := archive "game.zip" [("data/a.txt", ["game"])]
    let mod := archive "m.zip" [("data/a.txt", ["one"]), ("other/a.txt", ["two"])]
    (ofMods .smart base [mod]).1["data/a.txt"]? = some [⟨"m.zip", ["one"]⟩, ⟨"m.zip", ["two"]⟩] := by
  decide +kernel

end Case

end ModWeave
