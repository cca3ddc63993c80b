import Mathlib.Data.List.Basic
import ModWeave.Index.Build
import ModWeave.Index.Read

/-!
Names on the way through an archive. A normalized name is known by its segments and has no
backslash, and the number of a nested folder can be read off its name, so that no two of them meet.
The path of a container put aside announces its format.
-/
namespace ModWeave

namespace Text

theorem mem_of_mem_segments {isSeparator : Char → Bool} {cs s : List Char} {c : Char}
    (hs : s ∈ segments isSeparator cs) (hc : c ∈ s) : c ∈ cs := by
  induction cs generalizing s with
  | nil => simp_all [segments]
  | cons d cs ih =>
    unfold segments at hs
    split at hs
    · rcases List.mem_cons.1 hs with rfl | hs
      · cases hc
      · exact List.mem_cons_of_mem _ (ih hs hc)
    · split at hs
      · simp_all
      · next t rest ht =>
        rw [ht] at ih
        rcases List.mem_cons.1 hs with rfl | hs
        · rcases List.mem_cons.1 hc with rfl | hc
          · exact List.mem_cons_self
          · exact List.mem_cons_of_mem _ (ih List.mem_cons_self hc)
        · exact List.mem_cons_of_mem _ (ih (List.mem_cons_of_mem _ hs) hc)

theorem mem_joinWith {c d : Char} {parts : List (List Char)} (h : d ∈ joinWith c parts) :
    d = c ∨ ∃ s ∈ parts, d ∈ s := by
  induction parts with
  | nil => cases h
  | cons s rest ih =>
    cases rest with
    | nil => exact .inr ⟨s, List.mem_cons_self, h⟩
    | cons t rest =>
      rcases List.mem_append.1 (h : d ∈ s ++ c :: joinWith c (t :: rest)) with h | h
      · exact .inr ⟨s, List.mem_cons_self, h⟩
      rcases List.mem_cons.1 h with h | h
      · exact .inl h
      · obtain h | ⟨u, hu, h⟩ := ih h
        · exact .inl h
        · exact .inr ⟨u, List.mem_cons_of_mem _ hu, h⟩

theorem segments_eq_singleton {c : Char} {cs : List Char} (h : c ∉ cs) :
    segments (· == c) cs = [cs] := by
  induction cs with
  | nil => rfl
  | cons d cs ih =>
    simp only [List.mem_cons, not_or] at h
    simp [segments, ih h.2, Ne.symm h.1]

theorem segments_append_cons (c : Char) (cs ds : List Char) :
    segments (· == c) (cs ++ c :: ds) = segments (· == c) cs ++ segments (· == c) ds := by
  induction cs with
  | nil => simp [segments]
  | cons d cs ih =>
    obtain ⟨s, rest, hs⟩ := List.exists_cons_of_ne_nil (segments_ne_nil (· == c) cs)
    simp only [List.cons_append, segments, ih, hs]
    split <;> rfl

/-- What stands behind the last separator of all is the last segment. -/
theorem segments_concat {c : Char} (cs : List Char) {ds : List Char} (h : c ∉ ds) :
    segments (· == c) (cs ++ c :: ds) = segments (· == c) cs ++ [ds] := by
  rw [segments_append_cons, segments_eq_singleton h]

theorem not_mem_of_mem_segments_self {c : Char} {cs s : List Char}
    (h : s ∈ segments (· == c) cs) : c ∉ s :=
  fun hc => by simpa using not_mem_of_mem_segments h c hc

end Text

namespace Path

/-- Whether a name leads down from the folder it is looked up in. -/
structure LeadsDown (name : String) : Prop where
  noSlash : '/' ∉ name.toList
  notEmpty : name ≠ ""
  notHere : name ≠ "."
  notUp : name ≠ ".."

theorem fileName?_eq_some_iff {text name : String} :
    fileName? text = some name ↔ (names text).getLast? = some name ∧ name ≠ ".." := by
  unfold fileName?
  split
  · next h => rw [h]; simp +contextual [eq_comm]
  · next h => exact ⟨fun he => ⟨he, fun hn => h (hn ▸ he)⟩, And.left⟩

theorem leadsDown_of_fileName? {text name : String} (h : fileName? text = some name) :
    LeadsDown name := by
  obtain ⟨hlast, hup⟩ := fileName?_eq_some_iff.1 h
  obtain ⟨hmem, hkept⟩ := List.mem_filter.1 (List.mem_of_getLast? hlast)
  obtain ⟨s, hs, rfl⟩ := List.mem_map.1 hmem
  obtain ⟨hempty, hhere⟩ := of_decide_eq_true hkept
  exact ⟨by simpa using Text.not_mem_of_mem_segments_self hs, hempty, hhere, hup⟩

theorem text_concat {path : Path} (h : path ≠ []) (name : String) :
    text (path ++ [name]) = text path ++ "/" ++ name := by
  induction path with
  | nil => exact absurd rfl h
  | cons a rest ih =>
    cases rest with
    | nil => simp [text]
    | cons b rest =>
      have hrest := ih (List.cons_ne_nil b rest)
      simp only [text, List.cons_append] at hrest ⊢
      rw [String.intercalate_cons_cons, hrest, String.intercalate_cons_cons]
      simp only [String.append_assoc]

theorem fileName?_text_concat (path : Path) {name : String} (h : LeadsDown name) :
    fileName? (text (path ++ [name])) = some name := by
  refine fileName?_eq_some_iff.2 ⟨?_, h.notUp⟩
  have hkept : decide (name ≠ "" ∧ name ≠ ".") = true := decide_eq_true ⟨h.notEmpty, h.notHere⟩
  obtain ⟨front, hfront⟩ : ∃ front, Text.segments (· == '/') (text (path ++ [name])).toList
      = front ++ [name.toList] := by
    rcases eq_or_ne path [] with rfl | hpath
    · exact ⟨[], by simp [text, Text.segments_eq_singleton h.noSlash]⟩
    · refine ⟨Text.segments (· == '/') (text path).toList, ?_⟩
      rw [text_concat hpath, ← Text.segments_concat _ h.noSlash]
      simp
  simp [names, hfront, h.notEmpty, h.notHere]

/-- A text that ends in a file's name leads to a path that ends in it. -/
theorem exists_ofText_eq_concat {source name : String} (h : fileName? source = some name) :
    ∃ folder, ofText source = folder ++ [name] := by
  obtain ⟨hlast, hup⟩ := fileName?_eq_some_iff.1 h
  obtain ⟨front, hfront⟩ := List.getLast?_eq_some_iff.1 hlast
  exact ⟨front.foldl step (start source), by simp [ofText, hfront, step, hup]⟩

theorem ofPath?_text_ofText {source : String} {format : Format}
    (h : Format.ofPath? source = some format) : Format.ofPath? (ofText source).text = some format := by
  obtain ⟨name, hname, hformat⟩ := Option.bind_eq_some_iff.1 h
  obtain ⟨folder, hfolder⟩ := exists_ofText_eq_concat hname
  rw [Format.ofPath?, hfolder, fileName?_text_concat folder (leadsDown_of_fileName? hname),
    Option.bind_some, hformat]

end Path

namespace EntryName

theorem joinWith_segments (name : String) :
    Text.joinWith '/' ((segments name).map String.toList) = name.toList := by
  rw [segments, List.map_map]
  simpa using Text.joinWith_segments '/' name.toList

theorem segments_injective : Function.Injective segments := by
  intro a b h
  have hchars := congrArg (fun l => Text.joinWith '/' (l.map String.toList)) h
  simp only [joinWith_segments] at hchars
  exact String.toList_injective hchars

theorem segments_ne_nil (name : String) : segments name ≠ [] := by
  simp [segments, Text.segments_ne_nil]

/-- No backslash is left in a normalized name. -/
theorem noBackslash_of_normalize? {raw name : String} (h : normalize? raw = some name) :
    '\\' ∉ name.toList := by
  simp only [normalize?] at h
  split at h
  · cases h
  · obtain rfl := Option.some.inj h
    intro hc
    obtain hc | ⟨s, hs, hc⟩ := Text.mem_joinWith (by simpa using hc)
    · exact absurd hc (by decide)
    · simpa [isSlash] using Text.not_mem_of_mem_segments (List.mem_filter.1 hs).1 _ hc

theorem noBackslash_of_mem_segments {name s : String} (hname : '\\' ∉ name.toList)
    (hs : s ∈ segments name) : '\\' ∉ s.toList := by
  obtain ⟨t, ht, rfl⟩ := List.mem_map.1 hs
  exact fun hc => hname (Text.mem_of_mem_segments ht (by simpa using hc))

end EntryName

namespace Text

theorem takeWhile_bne_append {c : Char} {cs : List Char} (h : c ∉ cs) (ds : List Char) :
    (cs ++ c :: ds).takeWhile (· != c) = cs := by
  rw [List.takeWhile_append_of_pos, List.takeWhile_cons_of_neg] <;> simp
  exact fun d hd he => h (he ▸ hd)

theorem afterLast?_eq_some_iff {c : Char} {cs ds : List Char} :
    afterLast? c cs = some ds ↔ ∃ front, cs = front ++ c :: ds ∧ c ∉ ds := by
  constructor
  · intro h
    unfold afterLast? at h
    split at h
    · next hc =>
      obtain ⟨after, before, hcs, hafter⟩ := List.eq_append_cons_of_mem (List.mem_reverse.2 hc)
      obtain rfl : after.reverse = ds := by
        rw [hcs, takeWhile_bne_append hafter] at h
        exact Option.some.inj h
      refine ⟨before.reverse, ?_, by simpa using hafter⟩
      simpa using congrArg List.reverse hcs
    · cases h
  · rintro ⟨front, rfl, hds⟩
    have hback : (front ++ c :: ds).reverse = ds.reverse ++ c :: front.reverse := by simp
    rw [afterLast?, if_pos (by simp), hback, takeWhile_bne_append (by simpa using hds),
      List.reverse_reverse]

/-- Text without a separator lengthens the last segment of the text before it. -/
theorem exists_segments_append (c : Char) (cs : List Char) :
    ∃ front last, ∀ ds, c ∉ ds → segments (· == c) (cs ++ ds) = front ++ [last ++ ds] := by
  induction cs with
  | nil => exact ⟨[], [], fun ds h => by simpa using segments_eq_singleton h⟩
  | cons d cs ih =>
    obtain ⟨front, last, happend⟩ := ih
    by_cases hd : d = c
    · exact ⟨[] :: front, last, fun ds h => by simp [segments, hd, happend ds h]⟩
    cases front with
    | nil => exact ⟨[], d :: last, fun ds h => by simp [segments, hd, happend ds h]⟩
    | cons s front => exact ⟨(d :: s) :: front, last, fun ds h => by simp [segments, hd, happend ds h]⟩

end Text

namespace EntryName

theorem toList_sanitize (name : String) :
    (sanitize name).toList = name.toList.map fun c => if isPlain c then c else '_' := by
  simp [sanitize]

theorem noSlash_sanitize (name : String) : '/' ∉ (sanitize name).toList := by
  rw [toList_sanitize, List.mem_map]
  rintro ⟨c, -, hc⟩
  split at hc
  · next h => exact absurd (hc ▸ h) (by decide)
  · exact absurd hc (by decide)

end EntryName

namespace Format

/-- The extensions that announce a format, in lower case. -/
def extensions : Format → List String
  | zip => ["pak", "zip"]
  | sevenZ => ["7z"]

/-- Whether a name ends in a dot and an extension of the format, in any case. -/
def Announces (format : Format) (name : String) : Prop :=
  ∃ stem extension : List Char, name.toList = stem ++ '.' :: extension ∧
    String.ofList (extension.map Char.toLower) ∈ format.extensions

variable {name : String} {format : Format} {extension : List Char}

theorem isAlphanum_of_toLower {c : Char} (h : c.toLower.isAlphanum = true) : c.isAlphanum = true := by
  unfold Char.toLower at h
  split at h
  · next hc =>
    have hupper : c.isUpper = true := decide_eq_true hc
    have halpha : c.isAlpha = true := Bool.or_eq_true_iff.2 (.inl hupper)
    exact Bool.or_eq_true_iff.2 (.inl halpha)
  · exact h

/-- An extension that announces a format has neither dots nor slashes, and nothing that is changed when a name is
sanitized. -/
theorem isAlphanum_of_extension (h : String.ofList (extension.map Char.toLower) ∈ format.extensions) :
    ∀ c ∈ extension, c.isAlphanum = true := by
  have hknown : ∀ known ∈ format.extensions, known.toList.all Char.isAlphanum = true := by
    cases format <;> decide
  intro c hc
  refine isAlphanum_of_toLower (List.all_eq_true.1 (hknown _ h) _ ?_)
  rw [String.toList_ofList]
  exact List.mem_map_of_mem hc

theorem not_mem_extension {c : Char} (h : String.ofList (extension.map Char.toLower) ∈ format.extensions)
    (hc : c.isAlphanum = false) : c ∉ extension := by
  intro hmem
  rw [isAlphanum_of_extension h c hmem] at hc
  cases hc

theorem ofName?_eq_some_iff : ofName? name = some format ↔ format.Announces name := by
  constructor
  · intro h
    cases hext : Text.afterLast? '.' name.toList with
    | none => simp [ofName?, hext] at h
    | some extension =>
      obtain ⟨stem, hname, -⟩ := Text.afterLast?_eq_some_iff.1 hext
      refine ⟨stem, extension, hname, ?_⟩
      simp only [ofName?, hext, Option.bind_eq_bind, Option.bind_some] at h
      split at h
      · next hlower => cases h; simp [hlower, extensions]
      · next hlower => cases h; simp [hlower, extensions]
      · next hlower => cases h; simp [hlower, extensions]
      · cases h
  · rintro ⟨stem, extension, hname, hlower⟩
    have hext : Text.afterLast? '.' name.toList = some extension :=
      Text.afterLast?_eq_some_iff.2 ⟨stem, hname, not_mem_extension hlower (by decide)⟩
    cases format with
    | zip =>
      simp only [extensions, List.mem_cons, List.not_mem_nil, or_false] at hlower
      obtain hlower | hlower := hlower <;> simp [ofName?, hext, hlower]
    | sevenZ =>
      simp only [extensions, List.mem_cons, List.not_mem_nil, or_false] at hlower
      simp [ofName?, hext, hlower]

/-- The name under which a container is put aside announces what the container's own name does: the last dot stands
behind the last slash, and what stands behind it is not changed. -/
theorem Announces.sanitize_base (h : format.Announces name) :
    format.Announces (EntryName.sanitize (EntryName.base name)) := by
  obtain ⟨stem, extension, hname, hlower⟩ := h
  obtain ⟨segs, last, hsegs⟩ := Text.exists_segments_append '/' stem
  have hslash : '/' ∉ '.' :: extension :=
    List.not_mem_cons_of_ne_of_not_mem (by decide) (not_mem_extension hlower (by decide))
  have hbase : (EntryName.base name).toList = last ++ '.' :: extension := by
    simp [EntryName.base, EntryName.segments, hname, hsegs _ hslash]
  have hkept : (extension.map fun c => if EntryName.isPlain c then c else '_') = extension := by
    refine (List.map_congr_left fun c hc => if_pos ?_).trans (List.map_id _)
    simp [EntryName.isPlain, isAlphanum_of_extension hlower c hc]
  refine ⟨last.map fun c => if EntryName.isPlain c then c else '_', extension, ?_, hlower⟩
  rw [EntryName.toList_sanitize, hbase, List.map_append, List.map_cons, hkept]
  rfl

theorem ofName?_sanitize (h : ofName? name = some format) :
    ofName? (EntryName.sanitize (EntryName.base name)) = some format :=
  ofName?_eq_some_iff.2 (ofName?_eq_some_iff.1 h).sanitize_base

theorem leadsDown_sanitize (h : ofName? name = some format) :
    Path.LeadsDown (EntryName.sanitize (EntryName.base name)) := by
  have hformat := ofName?_sanitize h
  refine ⟨EntryName.noSlash_sanitize _, ?_, ?_, ?_⟩ <;>
    · intro hc
      rw [hc] at hformat
      cases format <;> exact absurd hformat (by decide)

end Format

namespace Text

/-- Parts are the segments of what they are joined to, if the separator is in none of them. -/
theorem segments_joinWith {c : Char} {parts : List (List Char)} (hne : parts ≠ [])
    (h : ∀ s ∈ parts, c ∉ s) : segments (· == c) (joinWith c parts) = parts := by
  induction parts with
  | nil => exact absurd rfl hne
  | cons s rest ih =>
    rw [List.forall_mem_cons] at h
    cases rest with
    | nil => exact segments_eq_singleton h.1
    | cons t rest =>
      rw [joinWith, segments_append_cons, segments_eq_singleton h.1, ih (List.cons_ne_nil t rest) h.2]
      · rfl
      · exact List.cons_ne_nil t rest

/-- Only the separators that are there part a text. -/
theorem segments_congr {p q : Char → Bool} {cs : List Char} (h : ∀ c ∈ cs, p c = q c) :
    segments p cs = segments q cs := by
  induction cs with
  | nil => rfl
  | cons c cs ih =>
    rw [List.forall_mem_cons] at h
    simp only [segments, h.1, ih h.2]

end Text

namespace Path

variable {path : Path}

theorem toList_text (path : Path) : (text path).toList = Text.joinWith '/' (path.map String.toList) := by
  induction path with
  | nil => rfl
  | cons name rest ih =>
    cases rest with
    | nil => simp [text, Text.joinWith]
    | cons next rest =>
      rw [text, String.intercalate_cons_cons, String.toList_append, String.toList_append]
      change name.toList ++ ['/'] ++ (text (next :: rest)).toList = _
      rw [ih, List.append_assoc]
      rfl

/-- The segments of a path's text are its names. -/
theorem segments_text (hne : path ≠ []) (h : ∀ name ∈ path, LeadsDown name) :
    EntryName.segments (text path) = path := by
  rw [EntryName.segments, toList_text, Text.segments_joinWith (by simpa using hne), List.map_map]
  · simp
  · intro s hs
    obtain ⟨name, hname, rfl⟩ := List.mem_map.1 hs
    exact (h name hname).noSlash

theorem mem_toList_text {c : Char} (h : c ∈ (text path).toList) :
    c = '/' ∨ ∃ name ∈ path, c ∈ name.toList := by
  rw [toList_text] at h
  obtain h | ⟨s, hs, h⟩ := Text.mem_joinWith h
  · exact .inl h
  · obtain ⟨name, hname, rfl⟩ := List.mem_map.1 hs
    exact .inr ⟨name, hname, h⟩

/-- A path's text is a normalized name. -/
theorem normalize?_text (hne : path ≠ []) (h : ∀ name ∈ path, LeadsDown name)
    (hback : ∀ name ∈ path, '\\' ∉ name.toList) : EntryName.normalize? (text path) = some (text path) := by
  have hsteps : EntryName.steps (text path) = path.map String.toList := by
    have hsegments : Text.segments EntryName.isSlash (text path).toList = path.map String.toList := by
      rw [Text.segments_congr (q := (· == '/')), toList_text, Text.segments_joinWith (by simpa using hne)]
      · intro s hs
        obtain ⟨name, hname, rfl⟩ := List.mem_map.1 hs
        exact (h name hname).noSlash
      · intro c hc
        have hne : c ≠ '\\' := by
          rintro rfl
          obtain hslash | ⟨name, hname, hc⟩ := mem_toList_text hc
          · cases hslash
          · exact hback name hname hc
        simp [EntryName.isSlash, hne]
    rw [EntryName.steps, hsegments, List.filter_eq_self]
    intro s hs
    obtain ⟨name, hname, rfl⟩ := List.mem_map.1 hs
    exact decide_eq_true ⟨fun he => (h name hname).notEmpty (String.toList_injective he),
      fun he => (h name hname).notHere (String.toList_injective he)⟩
  have hup : ['.', '.'] ∉ path.map String.toList := by
    intro hmem
    obtain ⟨name, hname, he⟩ := List.mem_map.1 hmem
    exact (h name hname).notUp (String.toList_injective he)
  rw [EntryName.normalize?]
  simp only [hsteps]
  rw [if_neg (by simp [hne, hup]), ← toList_text, String.ofList_toList]

end Path

namespace Format

/-- Whether a name ends in the extension of a container, in any case. -/
def EndsAsContainer (name : String) : Prop :=
  ∃ stem extension : List Char, name.toList = stem ++ '.' :: extension ∧
    String.ofList (extension.map Char.toLower) ∈ ["pak", "zip", "7z"]

theorem isContainer_iff {name : String} : isContainer name = true ↔ EndsAsContainer name := by
  have hknown : ["pak", "zip", "7z"] = zip.extensions ++ sevenZ.extensions := rfl
  simp only [isContainer, Option.isSome_iff_exists, ofName?_eq_some_iff, EndsAsContainer, hknown, List.mem_append]
  constructor
  · rintro ⟨_ | _, stem, extension, hname, hlower⟩
    · exact ⟨stem, extension, hname, .inl hlower⟩
    · exact ⟨stem, extension, hname, .inr hlower⟩
  · rintro ⟨stem, extension, hname, hlower | hlower⟩
    · exact ⟨zip, stem, extension, hname, hlower⟩
    · exact ⟨sevenZ, stem, extension, hname, hlower⟩

end Format

namespace Container

@[simp] theorem nested_format (c : Container) (number : Nat) (name : String) (format : Format) :
    (c.nested number name format).format = format := rfl

theorem toList_nestedFolder (time number : Nat) (name : String) :
    (nestedFolder time number name).toList = "_nested_".toList ++ (Nat.toDigits 10 time ++
      '_' :: (Nat.toDigits 10 number ++ '_' :: (EntryName.sanitize (EntryName.base name)).toList)) := by
  simp [nestedFolder]
  rfl

/-- The name of a nested folder tells the number it was given. -/
theorem nestedFolder_number {s t m n : Nat} {a b : String} (h : nestedFolder s m a = nestedFolder t n b) :
    m = n := by
  have hnone (k : Nat) : '_' ∉ Nat.toDigits 10 k := fun hmem =>
    absurd (Nat.isDigit_of_mem_toDigits (by decide) (by decide) hmem) (by decide)
  have hchars := congrArg String.toList h
  simp only [toList_nestedFolder, List.append_cancel_left_eq] at hchars
  -- The time ends at the first line behind it, and the number at the next one.
  have htime := congrArg (List.takeWhile (· != '_')) hchars
  rw [Text.takeWhile_bne_append (hnone s), Text.takeWhile_bne_append (hnone t)] at htime
  rw [htime, List.append_cancel_left_eq, List.cons.injEq] at hchars
  have hnumber := congrArg (List.takeWhile (· != '_')) hchars.2
  rw [Text.takeWhile_bne_append (hnone m), Text.takeWhile_bne_append (hnone n)] at hnumber
  rw [← Nat.ofDigitChars_ten_toDigits (n := m), hnumber, Nat.ofDigitChars_ten_toDigits]

/-- The file that a container is put aside in is named by the last segment of its name. -/
theorem fileName?_nested (c : Container) (number : Nat) {name : String} {format : Format}
    (h : Format.ofName? name = some format) :
    Path.fileName? (c.nested number name format).path.text =
      some (EntryName.sanitize (EntryName.base name)) := by
  have hpath : (c.nested number name format).path =
      c.target ++ [nestedFolder (c.clock number) number name, "source"] ++
        [EntryName.sanitize (EntryName.base name)] := by
    simp [nested]
  rw [hpath, Path.fileName?_text_concat _ (Format.leadsDown_sanitize h)]

theorem ofPath?_nested (c : Container) (number : Nat) {name : String} {format : Format}
    (h : Format.ofName? name = some format) :
    Format.ofPath? (c.nested number name format).path.text = some format := by
  rw [Format.ofPath?, c.fileName?_nested number h, Option.bind_some, Format.ofName?_sanitize h]

end Container

/-- The copy of a container announces what its name in the archive does, so it is opened with just that format. -/
theorem Visit.enter_nested (v : Visit) (c : Container) (number : Nat) {name : String} {format : Format}
    (h : Format.ofName? name = some format) (visit : Container → Visit → Visit) :
    v.enter (c.nested number name format) visit =
      if v.failure.isSome then v else visit (c.nested number name format) v := by
  have hshown : Format.ofPath? (c.nested number name format).shown = some format := c.ofPath?_nested number h
  rw [Visit.enter, hshown]
  rfl

end ModWeave
