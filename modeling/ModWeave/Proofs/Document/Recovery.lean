import Mathlib.Data.List.Basic
import ModWeave.Document.Reading
import ModWeave.Document.Writing

/-!
Documents that are written and then read. A reader is given what was written with anything behind it, and
leaves that over. So a document is recovered from its text with a line for each item and field, unless a
string in it spells no text or a number is not natural.
-/
namespace ModWeave.Document

variable {α β : Type} {cs rest r : List Char}

/-- A reader gives a value and leaves a text over. -/
def Yields (p : Option (Parsed α cs)) (a : α) (rest : List Char) : Prop :=
  ∃ h, p = some ⟨a, rest, h⟩

theorem Yields.bind {p : Option (Parsed α r)} {f : Parsed α r → Option (Parsed β cs)} {a : α} {b : β}
    {left : List Char} (h : Yields p a rest) (hf : ∀ h, Yields (f ⟨a, rest, h⟩) b left) :
    Yields (p >>= f) b left := by
  obtain ⟨h, rfl⟩ := h
  exact hf h

theorem length_lt_append {xs : List Char} (h : xs ≠ []) (r : List Char) : r.length < (xs ++ r).length := by
  rw [List.length_append]
  exact Nat.lt_add_of_pos_left (List.length_pos_iff.mpr h)

/-! ### Strings -/

theorem hexNumber?_below : ∀ n < 0x20,
    hexNumber? ['0', '0', Nat.digitChar (n / 16), Nat.digitChar (n % 16)] = some n := by
  decide

theorem spell_unit {n : Nat} (h : n < 0x20) (ps : List Piece) :
    spell (.unit n :: ps) = (spell ps).map (Char.ofNat n :: ·) := by
  have hlow : isLowHalf n = false := by simp [isLowHalf]; omega
  have hhigh : isHighHalf n = false := by simp [isHighHalf]; omega
  rw [spell.eq_def]
  simp [hlow, hhigh]

/-- A character stands in a string behind a backslash, with its number, or as it is. -/
theorem escape_cases (c : Char) :
    (∃ e, escape c = ['\\', e] ∧ e ≠ 'u' ∧ escaped? e = some c) ∨
    (c.toNat < 0x20 ∧
      escape c = ['\\', 'u', '0', '0', Nat.digitChar (c.toNat / 16), Nat.digitChar (c.toNat % 16)]) ∨
    (c ≠ '"' ∧ c ≠ '\\' ∧ ¬c.toNat < 0x20 ∧ escape c = [c]) := by
  unfold escape
  split_ifs with h1 h2 h3 h4 h5 h6 h7 hcontrol
  · exact .inl ⟨'"', rfl, by decide, congrArg some h1.symm⟩
  · exact .inl ⟨'\\', rfl, by decide, congrArg some h2.symm⟩
  · exact .inl ⟨'b', rfl, by decide, congrArg some h3.symm⟩
  · exact .inl ⟨'f', rfl, by decide, congrArg some h4.symm⟩
  · exact .inl ⟨'n', rfl, by decide, congrArg some h5.symm⟩
  · exact .inl ⟨'r', rfl, by decide, congrArg some h6.symm⟩
  · exact .inl ⟨'t', rfl, by decide, congrArg some h7.symm⟩
  · exact .inr (.inl ⟨hcontrol, rfl⟩)
  · exact .inr (.inr ⟨h1, h2, hcontrol, rfl⟩)

/-- A character as it stands in a string is one piece, which spells it. -/
theorem piece?_escape (c : Char) (r : List Char) :
    ∃ p, Yields (piece? (escape c ++ r)) p r ∧ ∀ ps, spell (p :: ps) = (spell ps).map (c :: ·) := by
  obtain ⟨e, heq, hu, he⟩ | ⟨hcontrol, heq⟩ | ⟨-, hback, hcontrol, heq⟩ := escape_cases c
  all_goals rw [heq]
  · refine ⟨.char c, ⟨length_lt_append (List.cons_ne_nil _ _) r, ?_⟩, fun _ => rfl⟩
    simp [piece?, escapedPiece?, hu, he, Parsed.afterSome]
  · refine ⟨.unit c.toNat, ⟨length_lt_append (List.cons_ne_nil _ _) r, ?_⟩, fun ps => ?_⟩
    · simp [piece?, escapedPiece?, escapedUnit?, hexNumber?_below c.toNat hcontrol, Parsed.afterSome]
    · rw [spell_unit hcontrol, Char.ofNat_toNat]
  · exact ⟨.char c, ⟨tail_shorter c r, by simp [piece?, hback, hcontrol]⟩, fun _ => rfl⟩

theorem head?_escape_ne (c : Char) (r : List Char) : (escape c ++ r).head? ≠ some '"' := by
  obtain ⟨e, heq, -⟩ | ⟨-, heq⟩ | ⟨hquote, -, -, heq⟩ := escape_cases c
  · simp [heq]
  · simp [heq]
  · simpa [heq] using hquote

theorem closingQuote?_eq_none (h : cs.head? ≠ some '"') : closingQuote? cs = none := by
  cases cs with
  | nil => rfl
  | cons c r =>
    rw [closingQuote?, if_neg fun hc => h (congrArg some hc)]

/-- The characters of a string up to its closing quote are read as pieces that spell them. -/
theorem pieces_escape (s rest : List Char) :
    ∃ ps, Yields (pieces (s.flatMap escape ++ '"' :: rest)) ps rest ∧ spell ps = some s := by
  induction s with
  | nil =>
    refine ⟨[], ⟨Nat.lt_succ_self _, ?_⟩, rfl⟩
    change pieces ('"' :: rest) = _
    rw [pieces]
    rfl
  | cons c s ih =>
    obtain ⟨ps, ⟨hps, hread⟩, hspell⟩ := ih
    rw [List.flatMap_cons, List.append_assoc]
    obtain ⟨p, ⟨hp, hpiece⟩, hfirst⟩ := piece?_escape c (s.flatMap escape ++ '"' :: rest)
    refine ⟨p :: ps, ⟨Nat.lt_trans hps hp, ?_⟩, by rw [hfirst, hspell]; rfl⟩
    rw [pieces, closingQuote?_eq_none (head?_escape_ne c _), hpiece]
    simp only [Option.bind_eq_bind, Option.bind_some, hread]
    rfl

/-- A string behind its opening quote is read as the text that it was written for. -/
theorem string_escape (s : String) (rest : List Char) :
    Yields (string (s.toList.flatMap escape ++ '"' :: rest)) (some s) rest := by
  obtain ⟨ps, ⟨h, hread⟩, hspell⟩ := pieces_escape s.toList rest
  refine ⟨h, ?_⟩
  rw [string, hread, Option.map_some, hspell, Option.map_some, String.ofList_toList]

/-! ### Numbers -/

/-- A text before which a number ends. -/
def Stops : List Char → Prop
  | [] => True
  | c :: _ => c.isDigit = false ∧ c ≠ '.' ∧ c ≠ 'e' ∧ c ≠ 'E'

theorem ne_of_isDigit {c x : Char} (hc : c.isDigit = true) (hx : x.isDigit = false) : c ≠ x := by
  rintro rfl
  rw [hc] at hx
  cases hx

theorem takeWhile_isDigit {ds : List Char} (hds : ∀ c ∈ ds, c.isDigit = true) (hrest : Stops rest) :
    (ds ++ rest).takeWhile Char.isDigit = ds ∧ (ds ++ rest).dropWhile Char.isDigit = rest := by
  have hempty : rest.takeWhile Char.isDigit = [] ∧ rest.dropWhile Char.isDigit = rest := by
    cases rest with
    | nil => exact ⟨rfl, rfl⟩
    | cons c r => simp [hrest.1]
  rw [List.takeWhile_append_of_pos hds, List.dropWhile_append_of_pos hds, hempty.1, hempty.2]
  exact ⟨List.append_nil ds, rfl⟩

theorem digits_append {c : Char} {ds : List Char} (hds : ∀ x ∈ c :: ds, x.isDigit = true)
    (hrest : Stops rest) : Yields (digits (c :: ds ++ rest)) (c :: ds) rest := by
  obtain ⟨hc, hds⟩ := List.forall_mem_cons.mp hds
  obtain ⟨htake, hdrop⟩ := takeWhile_isDigit hds hrest
  refine ⟨length_lt_append (List.cons_ne_nil c ds) rest, ?_⟩
  simp [digits, hc, htake, skipWhile, hdrop, Remainder.afterSome]

theorem fraction_of_stops (h : Stops rest) : fraction rest = some ⟨rest, self_atMost rest⟩ := by
  cases rest with
  | nil => rfl
  | cons c r => rw [fraction, if_neg h.2.1]

theorem exponent_of_stops (h : Stops rest) : exponent rest = some ⟨rest, self_atMost rest⟩ := by
  cases rest with
  | nil => rfl
  | cons c r => rw [exponent, if_neg (not_or.mpr h.2.2)]

/-- Digits without a zero in front are read as the natural number that they write. -/
theorem number?_digits {c : Char} {ds : List Char} (hds : ∀ x ∈ c :: ds, x.isDigit = true)
    (hzero : c = '0' → ds = []) (hrest : Stops rest) :
    Yields (number? (c :: ds ++ rest)) (.natural (decimal (c :: ds))) rest := by
  obtain ⟨h, hdigits⟩ := digits_append hds hrest
  have hwhole : wholeDigits (c :: ds ++ rest) = some ⟨c :: ds, rest, h⟩ := by
    rw [wholeDigits, hdigits, Option.filter_some, if_pos]
    by_cases hc : c = '0'
    · simp [hzero hc]
    · simp [hc]
  have hsign : number? (c :: ds ++ rest) = unsigned (c :: ds ++ rest) :=
    if_neg (ne_of_isDigit (hds c List.mem_cons_self) rfl)
  refine ⟨h, ?_⟩
  rw [hsign, unsigned, hwhole]
  simp [fraction_of_stops hrest, exponent_of_stops hrest, Remainder.afterSome]

theorem decimal_append (ds : List Char) (c : Char) :
    decimal (ds ++ [c]) = 10 * decimal ds + (c.toNat - '0'.toNat) := by
  rw [decimal, List.foldl_append]
  rfl

theorem toNat_digitChar : ∀ n < 10, (Nat.digitChar n).toNat - '0'.toNat = n := by decide

theorem digitChar_ne_zero : ∀ n < 10, Nat.digitChar n = '0' → n = 0 := by decide

/-- The digits of a number write it. -/
theorem decimal_toDigits (n : Nat) : decimal (Nat.toDigits 10 n) = n := by
  induction n using Nat.strongRecOn with
  | ind n ih =>
    obtain hn | hn := Nat.lt_or_ge n 10
    · rw [Nat.toDigits_of_lt_base hn]
      exact (Nat.zero_add _).trans (toNat_digitChar n hn)
    · rw [Nat.toDigits_of_base_le (by decide) hn, decimal_append, ih _ (by omega),
        toNat_digitChar _ (Nat.mod_lt n (by decide))]
      exact Nat.div_add_mod n 10

/-- Only zero is written with a zero in front. -/
theorem toDigits_zero_head (n : Nat) {ds : List Char} (h : Nat.toDigits 10 n = '0' :: ds) : ds = [] := by
  have hpos (n : Nat) : ∀ c ∈ (Nat.toDigits 10 (n + 1)).head?, c ≠ '0' := by
    induction n using Nat.strongRecOn with
    | ind n ih =>
      obtain hn | hn := Nat.lt_or_ge (n + 1) 10
      · rw [Nat.toDigits_of_lt_base hn]
        rintro c ⟨⟩ hc
        exact absurd (digitChar_ne_zero _ hn hc) (Nat.succ_ne_zero n)
      · obtain ⟨k, hk⟩ : ∃ k, (n + 1) / 10 = k + 1 := ⟨(n + 1) / 10 - 1, by omega⟩
        rw [Nat.toDigits_of_base_le (by decide) hn, hk,
          List.head?_append_of_ne_nil _ (Nat.toDigits_ne_nil)]
        exact ih k (by omega)
  cases n with
  | zero => exact (List.cons.inj h).2.symm
  | succ n => exact absurd rfl (hpos n '0' (by rw [h]; rfl))

/-- A natural number is read as it was written. -/
theorem number?_toString (n : Nat) (hrest : Stops rest) :
    Yields (number? ((toString n).toList ++ rest)) (.natural n) rest := by
  rw [Nat.toString_eq_ofList_toDigits, String.toList_ofList]
  have hds (c : Char) (hc : c ∈ Nat.toDigits 10 n) : c.isDigit = true :=
    Nat.isDigit_of_mem_toDigits (by decide) (by decide) hc
  cases h : Nat.toDigits 10 n with
  | nil => exact absurd h Nat.toDigits_ne_nil
  | cons c ds =>
    rw [h] at hds
    have hread := number?_digits hds (fun hc => toDigits_zero_head n (hc ▸ h)) hrest
    rwa [← h, decimal_toDigits, h] at hread


/-! ### Documents -/

/-- A document whose strings all spell texts and whose numbers are natural. -/
inductive Plain : Document → Prop
  | null : Plain null
  | bool (b : Bool) : Plain (bool b)
  | natural (n : Nat) : Plain (natural n)
  | text (s : String) : Plain (ofString s)
  | list {items : List Document} (plain : ∀ d ∈ items, Plain d) : Plain (list items)
  | record {fields : List (Spelled × Document)} (named : ∀ f ∈ fields, f.1.isSome)
      (plain : ∀ f ∈ fields, Plain f.2) : Plain (record fields)

variable {c : Char} {d : Document}

/-! ### What a reader looks for first -/

theorem sign_of_dropWhile (h : cs.dropWhile isSpace = c :: r) : ∃ hr, sign c cs = some ⟨r, hr⟩ := by
  have hr : r.length < cs.length := by
    refine Nat.lt_of_lt_of_le (tail_shorter c r) ?_
    rw [← h]
    exact (List.dropWhile_suffix isSpace).length_le
  refine ⟨hr, ?_⟩
  unfold sign
  dsimp only
  split
  next hleft _ => exact absurd (hleft.symm.trans h) (List.cons_ne_nil c r).symm
  next hleft _ =>
    obtain ⟨rfl, rfl⟩ := List.cons.inj (hleft.symm.trans h)
    exact if_pos rfl

theorem sign_eq_none (h : (cs.dropWhile isSpace).head? ≠ some c) : sign c cs = none := by
  unfold sign
  dsimp only
  split
  next => rfl
  next x l _ hleft _ => exact if_neg fun hx : x = c => h (hx ▸ congrArg List.head? hleft)

/-- White space in front of a text that begins with something else. -/
theorem dropWhile_isSpace {ws : List Char} (hws : ∀ x ∈ ws, isSpace x = true) (hc : isSpace c = false)
    (r : List Char) : (ws ++ c :: r).dropWhile isSpace = c :: r := by
  rw [List.dropWhile_append_of_pos hws, List.dropWhile_cons_of_neg (Bool.not_eq_true _ ▸ hc)]

theorem value_atom (hbrace : (cs.dropWhile isSpace).head? ≠ some '{')
    (hbracket : (cs.dropWhile isSpace).head? ≠ some '[') (hquote : (cs.dropWhile isSpace).head? ≠ some '"')
    (h : Yields ((name? (cs.dropWhile isSpace)).or (number? (cs.dropWhile isSpace))) d rest) :
    Yields (value cs) d rest := by
  rw [value, sign_eq_none hbrace, sign_eq_none hbracket, sign_eq_none hquote]
  exact h.bind fun _ => ⟨_, rfl⟩

theorem value_text {s : Spelled} (h : cs.dropWhile isSpace = '"' :: r) (hs : Yields (string r) s rest) :
    Yields (value cs) (.text s) rest := by
  obtain ⟨hr, hquote⟩ := sign_of_dropWhile h
  rw [value, sign_eq_none (by simp [h]), sign_eq_none (by simp [h]), hquote]
  exact hs.bind fun _ => ⟨_, rfl⟩

theorem value_emptyList (h : cs.dropWhile isSpace = '[' :: r) (hr : r.dropWhile isSpace = ']' :: rest) :
    Yields (value cs) (.list []) rest := by
  obtain ⟨_, hbracket⟩ := sign_of_dropWhile h
  obtain ⟨_, hclose⟩ := sign_of_dropWhile hr
  rw [value, sign_eq_none (by simp [h]), hbracket]
  simp only [hclose]
  exact ⟨_, rfl⟩

theorem value_list {ds : List Document} (h : cs.dropWhile isSpace = '[' :: r)
    (hr : (r.dropWhile isSpace).head? ≠ some ']') (hitems : Yields (items r) ds rest) :
    Yields (value cs) (.list ds) rest := by
  obtain ⟨_, hbracket⟩ := sign_of_dropWhile h
  rw [value, sign_eq_none (by simp [h]), hbracket]
  simp only [sign_eq_none hr]
  exact hitems.bind fun _ => ⟨_, rfl⟩

theorem value_emptyRecord (h : cs.dropWhile isSpace = '{' :: r) (hr : r.dropWhile isSpace = '}' :: rest) :
    Yields (value cs) (.record []) rest := by
  obtain ⟨_, hbrace⟩ := sign_of_dropWhile h
  obtain ⟨_, hclose⟩ := sign_of_dropWhile hr
  rw [value, hbrace]
  simp only [hclose]
  exact ⟨_, rfl⟩

theorem value_record {fs : List (Spelled × Document)} (h : cs.dropWhile isSpace = '{' :: r)
    (hr : (r.dropWhile isSpace).head? ≠ some '}') (hfields : Yields (fields r) fs rest) :
    Yields (value cs) (.record fs) rest := by
  obtain ⟨_, hbrace⟩ := sign_of_dropWhile h
  rw [value, hbrace]
  simp only [sign_eq_none hr]
  exact hfields.bind fun _ => ⟨_, rfl⟩

/-- How a text goes on behind an item or a field: with the closing sign, or with a comma and the others. -/
inductive GoesOn {α : Type} (close : Char) (reader : (cs : List Char) → Option (Parsed (List α) cs))
    (rest : List Char) : List Char → List α → Prop
  | last {r : List Char} (h : r.dropWhile isSpace = close :: rest) : GoesOn close reader rest r []
  | more {r r₁ : List Char} {xs : List α} (h : r.dropWhile isSpace = ',' :: r₁)
      (hxs : Yields (reader r₁) xs rest) : GoesOn close reader rest r xs

theorem items_cons {ds : List Document} (hd : Yields (value cs) d r) (h : GoesOn ']' items rest r ds) :
    Yields (items cs) (d :: ds) rest := by
  rw [items]
  refine hd.bind fun _ => ?_
  cases h with
  | last hr =>
    obtain ⟨_, hclose⟩ := sign_of_dropWhile hr
    have hcomma : sign ',' r = none := sign_eq_none (by simp [hr])
    simp only [hcomma, hclose]
    exact ⟨_, rfl⟩
  | more hr hds =>
    obtain ⟨_, hcomma⟩ := sign_of_dropWhile hr
    simp only [hcomma]
    exact hds.bind fun _ => ⟨_, rfl⟩

theorem fields_cons {name : Spelled} {fs : List (Spelled × Document)} {r₁ r₂ r₃ : List Char}
    (h : cs.dropWhile isSpace = '"' :: r) (hname : Yields (string r) name r₁)
    (hcolon : r₁.dropWhile isSpace = ':' :: r₂) (hd : Yields (value r₂) d r₃)
    (hfs : GoesOn '}' fields rest r₃ fs) : Yields (fields cs) ((name, d) :: fs) rest := by
  obtain ⟨_, hquote⟩ := sign_of_dropWhile h
  obtain ⟨_, hname⟩ := hname
  obtain ⟨_, hcolon⟩ := sign_of_dropWhile hcolon
  obtain ⟨_, hd⟩ := hd
  rw [fields]
  simp only [hquote, hname, hcolon, hd, Option.bind_eq_bind, Option.bind_some, Parsed.afterSome,
    Rest.afterSome]
  cases hfs with
  | last hr =>
    obtain ⟨_, hclose⟩ := sign_of_dropWhile hr
    have hcomma : sign ',' r₃ = none := sign_eq_none (by simp [hr])
    simp only [hcomma, hclose]
    exact ⟨_, rfl⟩
  | more hr hfs =>
    obtain ⟨_, hcomma⟩ := sign_of_dropWhile hr
    simp only [hcomma]
    exact hfs.bind fun _ => ⟨_, rfl⟩

/-! ### What is written -/

theorem isSpace_newLine {level : Nat} : ∀ x ∈ newLine level, isSpace x = true := by
  simp [newLine, isSpace]

theorem stops_newLine (level : Nat) (r : List Char) : Stops (newLine level ++ r) := by
  refine ⟨?_, ?_, ?_, ?_⟩ <;> decide

theorem stops_comma (r : List Char) : Stops (',' :: r) := by
  refine ⟨?_, ?_, ?_, ?_⟩ <;> decide

theorem dropWhile_newLine (hc : isSpace c = false) (level : Nat) (r : List Char) :
    (newLine level ++ c :: r).dropWhile isSpace = c :: r :=
  dropWhile_isSpace isSpace_newLine hc r

theorem toString_cons (n : Nat) : ∃ c r, (toString n).toList = c :: r ∧ c.isDigit = true := by
  rw [Nat.toString_eq_ofList_toDigits, String.toList_ofList]
  cases h : Nat.toDigits 10 n with
  | nil => exact absurd h Nat.toDigits_ne_nil
  | cons c r =>
    exact ⟨c, r, rfl, Nat.isDigit_of_mem_toDigits (by decide) (by decide) (h ▸ List.mem_cons_self)⟩

theorem isSpace_of_isDigit (hc : c.isDigit = true) : isSpace c = false := by
  have hne {x : Char} (hx : x.isDigit = false) := ne_of_isDigit hc hx
  simp [isSpace, hne (x := ' ') rfl, hne (x := '\n') rfl, hne (x := '\t') rfl, hne (x := '\r') rfl]

/-- A plain document is written with a character in front that is no white space and closes no list. -/
theorem Plain.prettyAt_cons (h : d.Plain) (level : Nat) :
    ∃ c r, prettyAt level d = c :: r ∧ isSpace c = false ∧ c ≠ ']' := by
  cases h with
  | null => exact ⟨'n', _, rfl, by decide⟩
  | bool b => cases b <;> exact ⟨_, _, rfl, by decide⟩
  | natural n =>
    obtain ⟨c, r, heq, hc⟩ := toString_cons n
    exact ⟨c, r, heq, isSpace_of_isDigit hc, ne_of_isDigit hc rfl⟩
  | text s => exact ⟨'"', _, rfl, by decide⟩
  | @list items => cases items <;> exact ⟨'[', _, rfl, by decide⟩
  | @record fields => cases fields <;> exact ⟨'{', _, rfl, by decide⟩

/-- A document that is read from its text with white space in front, whatever stands behind. -/
def Recovers (d : Document) : Prop :=
  ∀ (level : Nat) (ws rest : List Char), (∀ x ∈ ws, isSpace x = true) → Stops rest →
    Yields (value (ws ++ (prettyAt level d ++ rest))) d rest

theorem items_prettyItems (level below : Nat) {ds : List Document} (hne : ds ≠ [])
    (h : ∀ d ∈ ds, Recovers d) (rest : List Char) :
    Yields (items (prettyItems level ds ++ (newLine below ++ ']' :: rest))) ds rest := by
  induction ds with
  | nil => exact absurd rfl hne
  | cons d ds ih =>
    obtain ⟨hd, hds⟩ := List.forall_mem_cons.mp h
    obtain ⟨behind, htext, hstops, hbehind⟩ : ∃ behind,
        prettyItems level (d :: ds) ++ (newLine below ++ ']' :: rest) =
          newLine level ++ (prettyAt level d ++ behind) ∧
        Stops behind ∧ GoesOn ']' items rest behind ds := by
      cases ds with
      | nil =>
        exact ⟨_, by rw [prettyItems, List.append_assoc], stops_newLine _ _, .last (dropWhile_newLine rfl _ _)⟩
      | cons d' ds =>
        exact ⟨_, by simp [prettyItems], stops_comma _, .more rfl (ih (List.cons_ne_nil _ _) hds)⟩
    rw [htext]
    exact items_cons (hd level _ _ isSpace_newLine hstops) hbehind

/-- The first item is no closing bracket. -/
theorem head?_prettyItems (h : d.Plain) (level : Nat) (ds : List Document) (rest : List Char) :
    ((prettyItems level (d :: ds) ++ rest).dropWhile isSpace).head? ≠ some ']' := by
  obtain ⟨c, r, heq, hspace, hbracket⟩ := h.prettyAt_cons level
  obtain ⟨left, hleft⟩ : ∃ left, prettyItems level (d :: ds) ++ rest = newLine level ++ c :: left := by
    cases ds with
    | nil => exact ⟨r ++ rest, by simp [prettyItems, heq]⟩
    | cons d' ds => exact ⟨r ++ ',' :: (prettyItems level (d' :: ds) ++ rest), by simp [prettyItems, heq]⟩
  rw [hleft, dropWhile_newLine hspace]
  simpa using hbracket

theorem string_writeString (s : String) (rest : List Char) :
    ∃ r, writeString (some s) ++ rest = '"' :: r ∧ Yields (string r) (some s) rest :=
  ⟨_, by simp [writeString], string_escape s rest⟩

/-- The first field is no closing brace. -/
theorem head?_prettyFields (level : Nat) (f : Spelled × Document) (fs : List (Spelled × Document))
    (rest : List Char) : ((prettyFields level (f :: fs) ++ rest).dropWhile isSpace).head? ≠ some '}' := by
  obtain ⟨left, hleft⟩ : ∃ left, prettyFields level (f :: fs) ++ rest = newLine level ++ '"' :: left := by
    obtain ⟨name, d⟩ := f
    cases name <;> cases fs <;> exact ⟨_, by simp [prettyFields, writeString]; rfl⟩
  rw [hleft, dropWhile_newLine rfl]
  exact fun h => absurd (Option.some.inj h) (by decide)

theorem fields_prettyFields (level below : Nat) {fs : List (Spelled × Document)} (hne : fs ≠ [])
    (hnamed : ∀ f ∈ fs, f.1.isSome) (h : ∀ f ∈ fs, Recovers f.2) (rest : List Char) :
    Yields (fields (prettyFields level fs ++ (newLine below ++ '}' :: rest))) fs rest := by
  induction fs with
  | nil => exact absurd rfl hne
  | cons f fs ih =>
    obtain ⟨name, d⟩ := f
    obtain ⟨hd, hds⟩ := List.forall_mem_cons.mp h
    obtain ⟨hname, hnames⟩ := List.forall_mem_cons.mp hnamed
    obtain ⟨s, rfl⟩ := Option.isSome_iff_exists.mp hname
    obtain ⟨behind, htext, hstops, hbehind⟩ : ∃ behind,
        prettyFields level ((some s, d) :: fs) ++ (newLine below ++ '}' :: rest) =
          newLine level ++ (writeString (some s) ++ ':' :: ([' '] ++ (prettyAt level d ++ behind))) ∧
        Stops behind ∧ GoesOn '}' fields rest behind fs := by
      cases fs with
      | nil =>
        exact ⟨_, by simp [prettyFields], stops_newLine _ _, .last (dropWhile_newLine rfl below rest)⟩
      | cons f' fs =>
        exact ⟨_, by simp [prettyFields], stops_comma _, .more rfl (ih (List.cons_ne_nil _ _) hnames hds)⟩
    obtain ⟨r, hr, hstring⟩ := string_writeString s (':' :: ([' '] ++ (prettyAt level d ++ behind)))
    rw [htext, hr]
    have hspace : ∀ x ∈ [' '], isSpace x = true := List.forall_mem_singleton.mpr rfl
    exact fields_cons (dropWhile_newLine rfl level r) hstring rfl (hd level _ _ hspace hstops) hbehind

/-- What is neither a string nor a list nor a record is read as it is written. -/
theorem recovers_atom (hc : ∀ level rest, ∃ c r, prettyAt level d ++ rest = c :: r ∧
      isSpace c = false ∧ c ≠ '{' ∧ c ≠ '[' ∧ c ≠ '"')
    (h : ∀ level rest, Stops rest →
      Yields ((name? (prettyAt level d ++ rest)).or (number? (prettyAt level d ++ rest))) d rest) :
    Recovers d := by
  intro level ws rest hws hrest
  obtain ⟨c, r, heq, hspace, hbrace, hbracket, hquote⟩ := hc level rest
  have hread := h level rest hrest
  rw [heq] at hread ⊢
  have hdrop := dropWhile_isSpace hws hspace r
  have hne {x : Char} (hx : c ≠ x) : ((ws ++ c :: r).dropWhile isSpace).head? ≠ some x := by
    simpa [hdrop] using hx
  exact value_atom (hne hbrace) (hne hbracket) (hne hquote) (hdrop.symm ▸ hread)

theorem recovers_natural (n : Nat) : Recovers (.natural n) := by
  obtain ⟨c, r, heq, hc⟩ := toString_cons n
  refine recovers_atom (fun level rest => ?_) fun level rest hrest => ?_
  · exact ⟨c, r ++ rest, congrArg (· ++ rest) heq, isSpace_of_isDigit hc, ne_of_isDigit hc rfl,
      ne_of_isDigit hc rfl, ne_of_isDigit hc rfl⟩
  · have hname : name? (prettyAt level (.natural n) ++ rest) = none := by
      change name? ((toString n).toList ++ rest) = none
      rw [heq, List.cons_append, name?, if_neg (ne_of_isDigit hc rfl), if_neg (ne_of_isDigit hc rfl),
        if_neg (ne_of_isDigit hc rfl)]
    rw [hname]
    exact number?_toString n hrest

/-- Every plain document is read from its text. -/
theorem Plain.recovers (h : d.Plain) : Recovers d := by
  -- Items and fields have an induction of their own, over the list; this one gives it what holds of each.
  induction h with
  | null =>
    exact recovers_atom (fun level rest => ⟨'n', _, rfl, by decide⟩)
      fun level rest _ => ⟨length_lt_append (List.cons_ne_nil _ _) rest, rfl⟩
  | bool b =>
    cases b
    all_goals
      exact recovers_atom (fun level rest => ⟨_, _, rfl, by decide⟩)
        fun level rest _ => ⟨length_lt_append (List.cons_ne_nil _ _) rest, rfl⟩
  | natural n => exact recovers_natural n
  | text s =>
    intro level ws rest hws hrest
    obtain ⟨r, hr, hstring⟩ := string_writeString s rest
    change Yields (value (ws ++ (writeString (some s) ++ rest))) (ofString s) rest
    rw [hr]
    exact value_text (dropWhile_isSpace hws rfl r) hstring
  | @list items plain ih =>
    intro level ws rest hws hrest
    cases items with
    | nil => exact value_emptyList (dropWhile_isSpace hws rfl (']' :: rest)) rfl
    | cons d ds =>
      have htext : prettyAt level (.list (d :: ds)) ++ rest =
          '[' :: (prettyItems (level + 1) (d :: ds) ++ (newLine level ++ ']' :: rest)) := by
        simp [prettyAt]
      rw [htext]
      exact value_list (dropWhile_isSpace hws rfl _)
        (head?_prettyItems (plain d List.mem_cons_self) (level + 1) ds _)
        (items_prettyItems (level + 1) level (List.cons_ne_nil d ds) ih rest)
  | @record fields hnamed plain ih =>
    intro level ws rest hws hrest
    cases fields with
    | nil => exact value_emptyRecord (dropWhile_isSpace hws rfl ('}' :: rest)) rfl
    | cons f fs =>
      have htext : prettyAt level (.record (f :: fs)) ++ rest =
          '{' :: (prettyFields (level + 1) (f :: fs) ++ (newLine level ++ '}' :: rest)) := by
        simp [prettyAt]
      rw [htext]
      exact value_record (dropWhile_isSpace hws rfl _)
        (head?_prettyFields (level + 1) f fs _)
        (fields_prettyFields (level + 1) level (List.cons_ne_nil f fs) hnamed ih rest)

/-- A plain document is the one that its text with a line for each item and field is. -/
theorem Plain.parse?_pretty (h : d.Plain) : parse? d.pretty = some d := by
  have hyields := h.recovers 0 [] [] (List.forall_mem_nil _) trivial
  rw [List.nil_append, List.append_nil] at hyields
  obtain ⟨_, hread⟩ := hyields
  rw [parse?, pretty, hread]
  rfl

end ModWeave.Document
