import ModWeave.Proofs.Tree.Reading

/-! Grammars as data: what each category stands for, and which lexemes are derived from it. -/
namespace ModWeave

/-- What a grammar puts together, over the categories `κ`. -/
inductive Pattern (κ : Type) where
  /-- One lexeme that passes a test. -/
  | lexeme (p : Lexeme → Bool)
  | category (c : κ)
  | nothing
  | seq (a b : Pattern κ)
  | either (a b : Pattern κ)
  /-- Any number of times, one behind the other. -/
  | many (a : Pattern κ)

namespace Pattern

variable {κ : Type}

/-- The patterns one behind the other. -/
def row (ps : List (Pattern κ)) : Pattern κ := ps.foldr seq nothing

def oneOf (ps : List (Pattern κ)) : Pattern κ := ps.foldr either (lexeme fun _ => false)

/-- The pattern or nothing. -/
def maybe (a : Pattern κ) : Pattern κ := either a nothing

/-- The punctuation `x`. -/
def sign (x : String) : Pattern κ := lexeme (· == (.punct, x))

/-- Punctuation that is one of `xs`. -/
def signs (xs : List String) : Pattern κ := lexeme fun x => x.1 == .punct && xs.contains x.2

/-- The word `x`. -/
def word (x : String) : Pattern κ := lexeme (· == (.ident, x))

/-- Any lexeme of a kind. -/
def any (kind : TokenKind) : Pattern κ := lexeme (·.1 == kind)

/-- Commas between items, possibly none, and a comma behind the last one or not. -/
def commaList (item : Pattern κ) : Pattern κ :=
  maybe (row [item, many (row [sign ",", item]), maybe (sign ",")])

end Pattern

open Pattern

/-- The lexemes are derived from the pattern, by rules that say what the categories stand for. -/
inductive Derives {κ : Type} (rules : κ → Pattern κ) : Pattern κ → List Lexeme → Prop
  | lexeme {p : Lexeme → Bool} {x : Lexeme} (h : p x = true) : Derives rules (lexeme p) [x]
  | category {c : κ} {ls : List Lexeme} (h : Derives rules (rules c) ls) :
      Derives rules (category c) ls
  | nothing : Derives rules nothing []
  | seq {a b : Pattern κ} {ls ms : List Lexeme} (h : Derives rules a ls) (k : Derives rules b ms) :
      Derives rules (seq a b) (ls ++ ms)
  | left {a b : Pattern κ} {ls : List Lexeme} (h : Derives rules a ls) : Derives rules (either a b) ls
  | right {a b : Pattern κ} {ls : List Lexeme} (h : Derives rules b ls) : Derives rules (either a b) ls
  | stop {a : Pattern κ} : Derives rules (many a) []
  | more {a : Pattern κ} {ls ms : List Lexeme} (h : Derives rules a ls) (k : Derives rules (many a) ms) :
      Derives rules (many a) (ls ++ ms)

/-- The tokens from `ts` up to `r` are derived from the pattern. -/
def Passes {κ : Type} (rules : κ → Pattern κ) (a : Pattern κ) (ts r : List Token) : Prop :=
  ∃ u, ts = u ++ r ∧ Derives rules a (u.map Token.content)

section

variable {κ : Type} {rules : κ → Pattern κ} {a b c : Pattern κ} {ts r : List Token}

theorem passes_nil_iff : Passes rules a ts [] ↔ Derives rules a (ts.map Token.content) := by
  constructor
  · rintro ⟨u, rfl, h⟩
    rwa [List.append_nil]
  · exact fun h => ⟨ts, (List.append_nil ts).symm, h⟩

theorem Passes.length_le (h : Passes rules a ts r) : r.length ≤ ts.length := by
  obtain ⟨u, rfl, -⟩ := h
  simp

theorem passes_lexeme {p : Lexeme → Bool} :
    Passes rules (lexeme p) ts r ↔ Takes (fun t => p t.content) ts r := by
  constructor
  · rintro ⟨u, rfl, h⟩
    generalize hu : u.map Token.content = ls at h
    cases h with
    | lexeme h =>
      obtain ⟨t, v, rfl, rfl, hv⟩ := List.map_eq_cons_iff.mp hu
      obtain rfl : v = [] := by simpa using hv
      exact ⟨t, rfl, h⟩
  · rintro ⟨t, rfl, ht⟩
    exact ⟨[t], rfl, .lexeme ht⟩

theorem passes_category {c : κ} : Passes rules (category c) ts r ↔ Passes rules (rules c) ts r := by
  constructor
  · rintro ⟨u, rfl, h⟩
    cases h with
    | category h => exact ⟨u, rfl, h⟩
  · rintro ⟨u, rfl, h⟩
    exact ⟨u, rfl, .category h⟩

@[simp] theorem passes_nothing : Passes rules nothing ts r ↔ ts = r := by
  constructor
  · rintro ⟨u, rfl, h⟩
    generalize hu : u.map Token.content = ls at h
    cases h with
    | nothing =>
      obtain rfl : u = [] := by simpa using hu
      rfl
  · rintro rfl
    exact ⟨[], rfl, .nothing⟩

theorem passes_seq :
    Passes rules (seq a b) ts r ↔ ∃ m, Passes rules a ts m ∧ Passes rules b m r := by
  constructor
  · rintro ⟨u, rfl, h⟩
    generalize hu : u.map Token.content = ls at h
    cases h with
    | seq h k =>
      obtain ⟨v, w, rfl, rfl, rfl⟩ := List.map_eq_append_iff.mp hu
      exact ⟨w ++ r, ⟨v, List.append_assoc .., h⟩, w, rfl, k⟩
  · rintro ⟨_, ⟨v, rfl, h⟩, w, rfl, k⟩
    refine ⟨v ++ w, (List.append_assoc ..).symm, ?_⟩
    rw [List.map_append]
    exact .seq h k

@[simp] theorem passes_row_nil : Passes rules (row []) ts r ↔ ts = r := passes_nothing

@[simp] theorem passes_row_cons {as : List (Pattern κ)} :
    Passes rules (row (a :: as)) ts r ↔ ∃ m, Passes rules a ts m ∧ Passes rules (row as) m r :=
  passes_seq

theorem passes_row_append {as bs : List (Pattern κ)} : Passes rules (row (as ++ bs)) ts r ↔
    ∃ m, Passes rules (row as) ts m ∧ Passes rules (row bs) m r := by
  induction as generalizing ts with
  | nil => simp
  | cons a as ih =>
    simp only [List.cons_append, passes_row_cons, ih]
    constructor
    · rintro ⟨k, hk, m, hm, hr⟩
      exact ⟨m, ⟨k, hk, hm⟩, hr⟩
    · rintro ⟨m, ⟨k, hk, hm⟩, hr⟩
      exact ⟨k, hk, m, hm, hr⟩

@[simp] theorem passes_either :
    Passes rules (either a b) ts r ↔ Passes rules a ts r ∨ Passes rules b ts r := by
  constructor
  · rintro ⟨u, rfl, h⟩
    cases h with
    | left h => exact .inl ⟨u, rfl, h⟩
    | right h => exact .inr ⟨u, rfl, h⟩
  · rintro (⟨u, rfl, h⟩ | ⟨u, rfl, h⟩)
    · exact ⟨u, rfl, .left h⟩
    · exact ⟨u, rfl, .right h⟩

@[simp] theorem passes_maybe : Passes rules (maybe a) ts r ↔ Passes rules a ts r ∨ ts = r := by
  rw [maybe, passes_either, passes_nothing]

theorem passes_oneOf {ps : List (Pattern κ)} :
    Passes rules (oneOf ps) ts r ↔ ∃ p ∈ ps, Passes rules p ts r := by
  induction ps with
  | nil => simp [oneOf, passes_lexeme]
  | cons p ps ih =>
    rw [oneOf, List.foldr_cons, passes_either, ← oneOf, ih]
    simp only [List.mem_cons, exists_eq_or_imp]

theorem passes_many : Passes rules (many a) ts r ↔
    ts = r ∨ ∃ m, Passes rules a ts m ∧ Passes rules (many a) m r := by
  constructor
  · rintro ⟨u, rfl, h⟩
    generalize hu : u.map Token.content = ls at h
    cases h with
    | stop =>
      obtain rfl : u = [] := by simpa using hu
      exact .inl rfl
    | more h k =>
      obtain ⟨v, w, rfl, rfl, rfl⟩ := List.map_eq_append_iff.mp hu
      exact .inr ⟨w ++ r, ⟨v, List.append_assoc .., h⟩, w, rfl, k⟩
  · rintro (rfl | ⟨_, ⟨v, rfl, h⟩, w, rfl, k⟩)
    · exact ⟨[], rfl, .stop⟩
    · refine ⟨v ++ w, (List.append_assoc ..).symm, ?_⟩
      rw [List.map_append]
      exact .more h k

@[simp] theorem passes_sign {x : String} : Passes rules (sign x) ts r ↔ Takes (·.isPunct x) ts r :=
  passes_lexeme

@[simp] theorem passes_word {x : String} : Passes rules (word x) ts r ↔ Takes (·.isWord x) ts r :=
  passes_lexeme

theorem passes_signs {xs : List String} : Passes rules (signs xs) ts r ↔
    Takes (fun t => t.kind == .punct && xs.contains t.lexeme) ts r :=
  passes_lexeme

@[simp] theorem passes_any {kind : TokenKind} : Passes rules (any kind) ts r ↔ Takes (·.kind == kind) ts r :=
  passes_lexeme

/-- Items are told one by one: behind each the list ends, or goes on behind a comma. -/
theorem passes_commaList : Passes rules (commaList a) ts r ↔ ts = r ∨ ∃ m, Passes rules a ts m ∧
    (m = r ∨ ∃ k, Takes (·.isPunct ",") m k ∧ Passes rules (commaList a) k r) := by
  have hlist (ts : List Token) : Passes rules (commaList a) ts r ↔ (∃ m, Passes rules a ts m ∧
      ∃ k, Passes rules (many (row [sign ",", a])) m k ∧ (Takes (·.isPunct ",") k r ∨ k = r)) ∨
        ts = r := by
    simp [commaList]
  rw [hlist, or_comm]
  refine or_congr_right (exists_congr fun m => and_congr_right fun _ => ?_)
  constructor
  · rintro ⟨k, hmany, hr⟩
    obtain rfl | ⟨l, hitem, hmany⟩ := passes_many.mp hmany
    · obtain hcomma | rfl := hr
      · exact .inr ⟨r, hcomma, (hlist r).mpr (.inr rfl)⟩
      · exact .inl rfl
    · obtain ⟨q, hcomma, hitem⟩ : ∃ q, Takes (·.isPunct ",") m q ∧ Passes rules a q l := by
        simpa using hitem
      exact .inr ⟨q, hcomma, (hlist q).mpr (.inl ⟨l, hitem, k, hmany, hr⟩)⟩
  · rintro (rfl | ⟨q, hcomma, hitems⟩)
    · exact ⟨m, passes_many.mpr (.inl rfl), .inr rfl⟩
    · obtain ⟨l, hitem, k, hmany, hr⟩ | rfl := (hlist q).mp hitems
      · have hmore : Passes rules (row [sign ",", a]) m l := by
          simpa using ⟨q, hcomma, hitem⟩
        exact ⟨k, passes_many.mpr (.inr ⟨l, hmore, hmany⟩), hr⟩
      · exact ⟨m, passes_many.mpr (.inl rfl), .inl hcomma⟩

/-- A run of lexemes of one sort ends where `r` starts. -/
theorem passes_many_lexeme {p : Lexeme → Bool} : Passes rules (many (lexeme p)) ts r ↔
    ∃ u, ts = u ++ r ∧ ∀ t ∈ u, p t.content = true := by
  constructor
  · intro h
    induction hn : ts.length generalizing ts with
    | zero =>
      obtain rfl := List.length_eq_zero_iff.mp hn
      obtain ⟨u, hu, -⟩ := h
      obtain ⟨rfl, rfl⟩ : u = [] ∧ r = [] := by simpa using hu.symm
      exact ⟨[], rfl, by simp⟩
    | succ n ih =>
      obtain rfl | ⟨m, hm, hmore⟩ := passes_many.mp h
      · exact ⟨[], rfl, by simp⟩
      · obtain ⟨t, rfl, ht⟩ := passes_lexeme.mp hm
        obtain ⟨u, rfl, hu⟩ := ih hmore (by simpa using hn)
        exact ⟨t :: u, rfl, List.forall_mem_cons.mpr ⟨ht, hu⟩⟩
  · rintro ⟨u, rfl, hu⟩
    induction u with
    | nil => exact passes_many.mpr (.inl rfl)
    | cons t u ih =>
      obtain ⟨ht, hu⟩ := List.forall_mem_cons.mp hu
      exact passes_many.mpr (.inr ⟨u ++ r, passes_lexeme.mpr ⟨t, rfl, ht⟩, ih hu⟩)

end

/-- What the pattern derives starts with a token that passes the test. -/
def Starts {κ : Type} (rules : κ → Pattern κ) (p : Token → Bool) (a : Pattern κ) : Prop :=
  ∀ ⦃ts r⦄, Passes rules a ts r → ts.head?.any p = true

namespace Starts

variable {κ : Type} {rules : κ → Pattern κ} {a b : Pattern κ} {p : Token → Bool}

theorem lexeme {q : Lexeme → Bool} (h : ∀ t : Token, q t.content = true → p t = true) :
    Starts rules p (lexeme q) := by
  intro ts r hts
  obtain ⟨t, rfl, ht⟩ := passes_lexeme.mp hts
  exact h t ht

theorem category {c : κ} (h : Starts rules p (rules c)) : Starts rules p (category c) :=
  fun _ _ hts => h (passes_category.mp hts)

theorem oneOf {ps : List (Pattern κ)} (h : ∀ a ∈ ps, Starts rules p a) :
    Starts rules p (oneOf ps) := by
  intro ts r hts
  obtain ⟨a, ha, hts⟩ := passes_oneOf.mp hts
  exact h a ha hts

theorem row {as : List (Pattern κ)} (h : Starts rules p a) : Starts rules p (row (a :: as)) := by
  intro ts r hts
  obtain ⟨m, ha, -⟩ := passes_row_cons.mp hts
  exact h ha

theorem of_many (h : Starts rules p a) {ts r : List Token} (hts : Passes rules (many a) ts r) :
    ts = r ∨ ts.head?.any p = true := by
  obtain rfl | ⟨m, hm, -⟩ := passes_many.mp hts
  · exact .inl rfl
  · exact .inr (h hm)

theorem row_many {as : List (Pattern κ)} (h : Starts rules p a) (k : Starts rules p (.row as)) :
    Starts rules p (.row (many a :: as)) := by
  intro ts r hts
  obtain ⟨m, hm, hr⟩ := passes_row_cons.mp hts
  obtain rfl | hp := h.of_many hm
  · exact k hr
  · exact hp

end Starts

end ModWeave
