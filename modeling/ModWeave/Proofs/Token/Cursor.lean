import ModWeave.Proofs.Token.Layout
import ModWeave.Token.Markup

/-!
Readers that keep their place in a text as byte offsets. What they see of the text is its slices and its bytes. A
slice is only there between character boundaries of the text.
-/
namespace ModWeave
open Text

/-- What comes of reading a text: a result or the fault of the text. Nothing does once bytes are sliced that are no
part of it, nor from a loop that is not done within the rounds it is given. -/
abbrev Scan := ExceptT ParseError Option

/-- Where a reader stands: a byte of the text, the line it is in, and where this line starts. -/
structure Cursor where
  pos : Nat
  line : Nat
  lineStart : Nat

/-- A token as the bytes it takes, and where its first character stands. -/
structure Mark where
  kind : TokenKind
  start : Nat
  stop : Nat
  line : Nat
  column : Nat
deriving DecidableEq

def Token.mark (t : Token) : Mark := ⟨t.kind, t.start, t.stop, t.place.line, t.place.column⟩

theorem Token.mark_ofList (kind : TokenKind) (lexeme : List Char) (p : Place) :
    Token.mark ⟨kind, String.ofList lexeme, p⟩ = ⟨kind, p.offset, p.offset + byteLength lexeme, p.line, p.column⟩ := by
  rw [Token.mark, Token.start, Token.stop, String.toList_ofList]

/-- Byte `i` of a text, if it has as many. -/
def byteAt (text : List Char) (i : Nat) : Option UInt8 := (text.flatMap String.utf8EncodeChar)[i]?

namespace Cursor

def start : Cursor := ⟨0, 1, 0⟩

/-- The cursor some bytes further on in its line. -/
def skip (k : Cursor) (bytes : Nat) : Cursor := { k with pos := k.pos + bytes }

/-- The cursor behind a character. -/
def past (k : Cursor) (c : Char) : Cursor :=
  if c = '\n' then ⟨k.pos + c.utf8Size, k.line + 1, k.pos + c.utf8Size⟩ else k.skip c.utf8Size

variable (text : List Char)

/-- The text from the cursor on. -/
def ahead (k : Cursor) : Scan (List Char) := dropBytes? k.pos text

def peek (k : Cursor) : Scan (Option Char) := return (← k.ahead text).head?

def column (k : Cursor) : Scan Nat := return (← slice? text k.lineStart k.pos).length + 1

def place (k : Cursor) : Scan Place := return ⟨k.pos, k.line, ← k.column text⟩

/-- The next character, if there is one, and the cursor behind it. -/
def bump (k : Cursor) : Scan (Option Char × Cursor) := do
  match ← k.peek text with
  | some c => return (some c, k.past c)
  | none => return (none, k)

def eatWhile (f : Char → Bool) : Nat → Cursor → Scan Cursor
  | 0, _ => none
  | n + 1, k => do
    match ← k.peek text with
    | some c => if f c then eatWhile f n (← k.bump text).2 else return k
    | none => return k

/-- The cursor behind the next `mark`, which is of one line. There is none if the text runs out first. -/
def skipPast (mark : List Char) : Nat → Cursor → Scan (Option Cursor)
  | 0, _ => none
  | n + 1, k => do
    if mark.isPrefixOf (← k.ahead text) then return some (k.skip (byteLength mark))
    else
      match ← k.bump text with
      | (some _, k) => skipPast mark n k
      | (none, _) => return none

end Cursor

/-- A scan yields what is read: the same fault, or a result that goes with it. -/
inductive Yields {α β : Type} (R : α → β → Prop) : Scan α → Except ParseError β → Prop
  | fault (e : ParseError) : Yields R (throw e) (.error e)
  | result {a : α} {b : β} (h : R a b) : Yields R (pure a) (.ok b)

/-- The cursor stands at this place, before the rest of the text. -/
def Cursor.At (text : List Char) (k : Cursor) (p : Place) (rest : List Char) : Prop :=
  ∃ before current, text = before ++ (current ++ rest) ∧ k.lineStart = byteLength before ∧
    k.pos = byteLength before + byteLength current ∧ p = ⟨k.pos, k.line, current.length + 1⟩

namespace Cursor.At

variable {text rest : List Char} {k : Cursor} {p : Place} {c : Char}

theorem start (text : List Char) : Cursor.start.At text .origin text := ⟨[], [], rfl, rfl, rfl, rfl⟩

theorem offset (h : k.At text p rest) : k.pos = p.offset := by
  obtain ⟨before, current, -, -, -, rfl⟩ := h
  rfl

theorem byteLength_le_iff (h : k.At text p rest) : byteLength text ≤ k.pos ↔ rest = [] := by
  obtain ⟨before, current, rfl, -, hpos, -⟩ := h
  rw [hpos, byteLength_append, byteLength_append]
  constructor
  · intro hle
    exact eq_nil_of_byteLength (by omega)
  · intro hnil
    subst hnil
    exact Nat.le_refl _

theorem ahead (h : k.At text p rest) : k.ahead text = pure rest := by
  obtain ⟨before, current, rfl, -, hpos, -⟩ := h
  have hdrop := dropBytes?_append (before ++ current) rest
  rw [byteLength_append, ← hpos, List.append_assoc] at hdrop
  rw [Cursor.ahead, hdrop]
  rfl

theorem peek (h : k.At text p rest) : k.peek text = pure rest.head? := by
  rw [Cursor.peek, h.ahead, pure_bind]

theorem place (h : k.At text p rest) : k.place text = pure p := by
  obtain ⟨before, current, rfl, hline, hpos, rfl⟩ := h
  have hslice := slice?_append before current rest
  rw [← hline] at hslice
  rw [Cursor.place, Cursor.column, hpos, ← hline, ← List.append_assoc, hslice]
  rfl

theorem past (h : k.At text p (c :: rest)) : (k.past c).At text (p.after c) rest := by
  obtain ⟨before, current, rfl, hline, hpos, rfl⟩ := h
  unfold Cursor.past Place.after
  split
  · refine ⟨before ++ (current ++ [c]), [], by simp, ?_, ?_, rfl⟩
    · simp [hpos, Nat.add_assoc]
    · simp [hpos, Nat.add_assoc]
  · refine ⟨before, current ++ [c], by simp, hline, ?_, ?_⟩
    · simp [Cursor.skip, hpos, Nat.add_assoc]
    · simp [Cursor.skip]

/-- Bytes can be skipped where the characters of a line stand. -/
theorem skip (run : List Char) (h : k.At text p (run ++ rest)) (hrun : '\n' ∉ run) :
    (k.skip (byteLength run)).At text (p.advance run) rest := by
  induction run generalizing k p with
  | nil => exact h
  | cons c run ih =>
    rw [List.mem_cons, not_or] at hrun
    have hmore := ih h.past hrun.2
    rw [Cursor.past, if_neg (Ne.symm hrun.1)] at hmore
    simpa [Cursor.skip, Nat.add_assoc] using hmore

theorem bump (h : k.At text p (c :: rest)) : k.bump text = pure (some c, k.past c) := by
  rw [Cursor.bump, h.peek, pure_bind]
  rfl

theorem bump_nil (h : k.At text p []) : k.bump text = pure (none, k) := by
  rw [Cursor.bump, h.peek, pure_bind]
  rfl

theorem eatWhile {n : Nat} (h : k.At text p rest) (hn : rest.length < n) (f : Char → Bool) :
    ∃ k', Cursor.eatWhile text f n k = pure k' ∧
      k'.At text (p.advance (rest.takeWhile f)) (rest.dropWhile f) := by
  induction n generalizing k p rest with
  | zero => exact absurd hn (Nat.not_lt_zero _)
  | succ n ih =>
    rw [Cursor.eatWhile, h.peek, pure_bind]
    cases rest with
    | nil => exact ⟨k, rfl, h⟩
    | cons c rest =>
      rw [List.head?_cons]
      cases hc : f c with
      | true =>
        obtain ⟨k', hk, hat⟩ := ih h.past (Nat.lt_of_succ_lt_succ hn)
        refine ⟨k', ?_, ?_⟩
        · simp only [hc, if_true, h.bump, pure_bind, hk]
        · rwa [List.takeWhile_cons_of_pos hc, List.dropWhile_cons_of_pos hc]
      | false =>
        have hc' : ¬ f c = true := by simp [hc]
        refine ⟨k, if_neg hc', ?_⟩
        rw [List.takeWhile_cons_of_neg hc', List.dropWhile_cons_of_neg hc']
        exact h

/-- A mark is found where it first occurs. -/
theorem skipPast {n : Nat} {mark : List Char} (h : k.At text p rest) (hn : rest.length < n) (hne : mark ≠ [])
    (hmark : '\n' ∉ mark) :
    (Markup.splitPast mark rest = none ∧ Cursor.skipPast text mark n k = pure none) ∨
    ∃ run after k', Markup.splitPast mark rest = some (run, after) ∧
      Cursor.skipPast text mark n k = pure (some k') ∧ k'.At text (p.advance run) after := by
  induction n generalizing k p rest with
  | zero => exact absurd hn (Nat.not_lt_zero _)
  | succ n ih =>
    rw [Cursor.skipPast, h.ahead, pure_bind]
    cases rest with
    | nil =>
      rw [if_neg (by simpa using hne), h.bump_nil, pure_bind]
      exact .inl ⟨rfl, rfl⟩
    | cons c rest =>
      rw [Markup.splitPast]
      by_cases hprefix : mark.isPrefixOf (c :: rest) = true
      · obtain ⟨after, hafter⟩ := List.isPrefixOf_iff_prefix.mp hprefix
        rw [if_pos hprefix, if_pos hprefix]
        refine .inr ⟨mark, _, _, rfl, rfl, ?_⟩
        rw [← hafter] at h ⊢
        rw [List.drop_left]
        exact h.skip mark hmark
      · rw [if_neg hprefix, if_neg hprefix, h.bump, pure_bind]
        obtain ⟨hnone, hk⟩ | ⟨run, after, k', hsome, hk, hat⟩ := ih h.past (Nat.lt_of_succ_lt_succ hn)
        · exact .inl ⟨by rw [hnone]; rfl, hk⟩
        · exact .inr ⟨c :: run, after, k', by rw [hsome]; rfl, hk, hat⟩

end Cursor.At

section Bytes

/-- The first byte of a character. -/
def leadByte (c : Char) : UInt8 := (String.utf8EncodeChar c).headD 0

def isAsciiDigit (b : UInt8) : Bool := '0'.toUInt8 ≤ b && b ≤ '9'.toUInt8

/-- A space, a tab, or an end of a line or a page. -/
def isAsciiBlank (b : UInt8) : Bool := [' ', '\t', '\n', '\x0c', '\r'].any (·.toUInt8 == b)

variable {c d : Char}

theorem leadByte_of_ascii (h : c.toNat < 128) : leadByte c = .ofNat c.toNat := by
  have hsize : c.utf8Size = 1 := Char.utf8Size_eq_one_iff.mpr (UInt32.le_iff_toNat_le.mpr (Nat.le_of_lt_succ h))
  rw [leadByte, String.utf8EncodeChar_eq_singleton hsize]
  exact (UInt8.ofNat_uInt32ToNat c.val).symm

/-- The first byte of a character beyond ASCII is beyond it too. -/
theorem le_leadByte (h : 128 ≤ c.toNat) : 128 ≤ (leadByte c).toNat := by
  have high {x y : UInt8} (hy : 128 ≤ y.toNat) : 128 ≤ (x ||| y).toNat :=
    UInt8.toNat_or x y ▸ Nat.le_trans hy Nat.right_le_or
  rw [leadByte]
  obtain h1 | h2 | h3 | h4 := Char.utf8Size_eq c
  · have hle : c.toNat ≤ 127 := UInt32.le_iff_toNat_le.mp (Char.utf8Size_eq_one_iff.mp h1)
    omega
  · rw [String.utf8EncodeChar_eq_cons_cons h2]
    exact high (by decide)
  · rw [String.utf8EncodeChar_eq_cons_cons_cons h3]
    exact high (by decide)
  · rw [String.utf8EncodeChar_eq_cons_cons_cons_cons h4]
    exact high (by decide)

/-- What only ASCII bytes are is told from the first byte of a character. -/
theorem apply_leadByte {f : UInt8 → Bool} {g : Char → Bool} (hascii : ∀ n < 128, f (.ofNat n) = g (.ofNat n))
    (hf : ∀ b : UInt8, 128 ≤ b.toNat → f b = false) (hg : ∀ c : Char, 128 ≤ c.toNat → g c = false) (c : Char) :
    f (leadByte c) = g c := by
  rcases Nat.lt_or_ge c.toNat 128 with h | h
  · rw [leadByte_of_ascii h, hascii _ h, Char.ofNat_toNat]
  · rw [hf _ (le_leadByte h), hg _ h]

theorem isAsciiDigit_leadByte (c : Char) : isAsciiDigit (leadByte c) = c.isDigit := by
  refine apply_leadByte (by decide) (fun b hb => ?_) (fun c hc => ?_) c
  · have : ('9'.toUInt8).toNat = 57 := by decide
    simp only [isAsciiDigit, Bool.and_eq_false_iff, decide_eq_false_iff_not, UInt8.le_iff_toNat_le]
    omega
  · have : c.val.toNat = c.toNat := rfl
    simp only [Char.isDigit, ge_iff_le, Bool.and_eq_false_iff, decide_eq_false_iff_not, UInt32.le_iff_toNat_le]
    simp
    omega

theorem leadByte_eq_iff (hd : d.toNat < 128) : leadByte c = d.toUInt8 ↔ c = d := by
  have hbyte : d.toUInt8 = leadByte d := by
    rw [leadByte_of_ascii hd]
    exact (UInt8.ofNat_uInt32ToNat d.val).symm
  refine ⟨fun h => ?_, fun h => h ▸ hbyte.symm⟩
  have htoNat {e : Char} (he : e.toNat < 128) : (leadByte e).toNat = e.toNat := by
    rw [leadByte_of_ascii he, UInt8.toNat_ofNat']
    exact Nat.mod_eq_of_lt (by omega)
  have heq := congrArg UInt8.toNat (h.trans hbyte)
  rw [htoNat hd] at heq
  rcases Nat.lt_or_ge c.toNat 128 with hc | hc
  · rw [htoNat hc] at heq
    exact Char.toNat_inj.mp heq
  · have := le_leadByte hc
    omega

theorem map_leadByte_eq_iff {o : Option Char} (hd : d.toNat < 128) : o.map leadByte = some d.toUInt8 ↔ o = some d := by
  cases o with
  | none => simp
  | some c => simp [leadByte_eq_iff hd]

theorem isBlank_of_isAsciiBlank (h : isAsciiBlank (leadByte c) = true) : isBlank c = true := by
  obtain ⟨d, hd, heq⟩ := List.any_eq_true.mp h
  have hall : [' ', '\t', '\n', '\x0c', '\r'].all (fun d => d.toNat < 128 && isBlank d) = true := by decide
  obtain ⟨hascii, hblank⟩ : d.toNat < 128 ∧ isBlank d = true := by simpa using List.all_eq_true.mp hall d hd
  rwa [(leadByte_eq_iff hascii).mp (beq_iff_eq.mp heq).symm]

end Bytes

namespace Cursor.At

variable {text rest : List Char} {k : Cursor} {p : Place} {c : Char}

theorem byteAt (h : k.At text p rest) :
    byteAt text k.pos = rest.head?.map leadByte := by
  obtain ⟨before, current, rfl, -, hpos, -⟩ := h
  have hlength (cs : List Char) : (cs.flatMap String.utf8EncodeChar).length = byteLength cs := by
    induction cs with
    | nil => rfl
    | cons c cs ih => rw [List.flatMap_cons, List.length_append, String.length_utf8EncodeChar, ih, byteLength_cons]
  have hcount : ((before ++ current).flatMap String.utf8EncodeChar).length = k.pos := by
    rw [hlength, byteLength_append, hpos]
  rw [ModWeave.byteAt, ← List.append_assoc, List.flatMap_append, List.getElem?_append_right (Nat.le_of_eq hcount), hcount,
    Nat.sub_self]
  cases rest with
  | nil => rfl
  | cons c rest =>
    obtain ⟨b, bytes, hbytes⟩ := List.exists_cons_of_ne_nil (String.utf8EncodeChar_ne_nil (c := c))
    simp [leadByte, hbytes]

theorem byteAt_succ (h : k.At text p (c :: rest)) (hc : c.utf8Size = 1) :
    ModWeave.byteAt text (k.pos + 1) = rest.head?.map leadByte := by
  have hpos : (k.past c).pos = k.pos + 1 := by
    rw [Cursor.past, Cursor.skip, hc]
    split <;> rfl
  rw [← hpos]
  exact h.past.byteAt

end Cursor.At

end ModWeave
