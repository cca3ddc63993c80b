import ModWeave.Proofs.Token.Reads
import ModWeave.Tree.Reading

/-! Readers told by what they leave over. A reader is local when nothing but the tokens that it passes
and the one behind them has a say: from the same lexemes with another rest it leaves that rest. -/
namespace ModWeave

/-- Two readers in a row succeed when each does. -/
theorem bind_eq_ok {ε α β : Type} {p : Except ε α} {next : α → Except ε β} {b : β} :
    p >>= next = .ok b ↔ ∃ a, p = .ok a ∧ next a = .ok b := by
  cases p <;> simp [bind, Except.bind]

/-- A reader goes on where another has succeeded. -/
theorem bind_succeeds {ε α β : Type} {p : Except ε α} {next : α → Except ε β} {Q : β → Prop} {a : α}
    (h : p = .ok a) (hnext : ∃ b, next a = .ok b ∧ Q b) : ∃ b, p >>= next = .ok b ∧ Q b := by
  rw [h]
  exact hnext

theorem ok_of_toOption {ε α : Type} {x : Except ε α} {a : α} (hx : x.toOption = some a) : x = .ok a := by
  cases x with
  | error => cases hx
  | ok b => exact congrArg _ (Option.some.inj hx)

/-- The reader passes at least one token and leaves `r`. -/
def Leaves {ts : List Token} (p : Except ParseError (Rest ts)) (r : List Token) : Prop :=
  ∃ a, p = .ok a ∧ a.val = r

/-- The reader leaves `r`. -/
def LeavesAny {ts : List Token} (p : Except ParseError (Remainder ts)) (r : List Token) : Prop :=
  ∃ a, p = .ok a ∧ a.val = r

/-- The reader gives a value and leaves `r`. -/
def Gives {α : Type} {ts : List Token} (p : Except ParseError (Parsed α ts)) (a : α)
    (r : List Token) : Prop :=
  ∃ b, p = .ok b ∧ b.value = a ∧ b.rest = r

/-- The reader gives a value, possibly of nothing, and leaves `r`. -/
def GivesAny {α : Type} {ts : List Token} (p : Except ParseError ((_ : α) × Remainder ts)) (a : α)
    (r : List Token) : Prop :=
  ∃ b, p = .ok b ∧ b.1 = a ∧ b.2.val = r

theorem Leaves.length_lt {ts r : List Token} {p : Except ParseError (Rest ts)} (h : Leaves p r) :
    r.length < ts.length := by
  obtain ⟨a, -, rfl⟩ := h
  exact a.property

theorem LeavesAny.length_le {ts r : List Token} {p : Except ParseError (Remainder ts)}
    (h : LeavesAny p r) : r.length ≤ ts.length := by
  obtain ⟨a, -, rfl⟩ := h
  exact a.property

theorem Gives.length_lt {α : Type} {a : α} {ts r : List Token}
    {p : Except ParseError (Parsed α ts)} (h : Gives p a r) : r.length < ts.length := by
  obtain ⟨b, -, -, rfl⟩ := h
  exact b.shorter

section

variable {ts r r' : List Token}

theorem Leaves.unique {p : Except ParseError (Rest ts)} (h : Leaves p r) (h' : Leaves p r') :
    r = r' := by
  obtain ⟨a, hp, rfl⟩ := h
  obtain ⟨b, hp', rfl⟩ := h'
  rw [hp] at hp'
  cases hp'
  rfl

theorem LeavesAny.unique {p : Except ParseError (Remainder ts)} (h : LeavesAny p r)
    (h' : LeavesAny p r') : r = r' := by
  obtain ⟨a, hp, rfl⟩ := h
  obtain ⟨b, hp', rfl⟩ := h'
  rw [hp] at hp'
  cases hp'
  rfl

theorem Gives.unique {α : Type} {a a' : α} {p : Except ParseError (Parsed α ts)} (h : Gives p a r)
    (h' : Gives p a' r') : a = a' ∧ r = r' := by
  obtain ⟨b, hp, rfl, rfl⟩ := h
  obtain ⟨b', hp', rfl, rfl⟩ := h'
  rw [hp] at hp'
  cases hp'
  exact ⟨rfl, rfl⟩

end

theorem GivesAny.length_le {α : Type} {a : α} {ts r : List Token}
    {p : Except ParseError ((_ : α) × Remainder ts)} (h : GivesAny p a r) : r.length ≤ ts.length := by
  obtain ⟨b, -, -, rfl⟩ := h
  exact b.2.property

theorem GivesAny.unique {α : Type} {a a' : α} {ts r r' : List Token}
    {p : Except ParseError ((_ : α) × Remainder ts)} (h : GivesAny p a r) (h' : GivesAny p a' r') :
    a = a' ∧ r = r' := by
  obtain ⟨b, hp, rfl, rfl⟩ := h
  obtain ⟨b', hp', rfl, rfl⟩ := h'
  rw [hp] at hp'
  cases hp'
  exact ⟨rfl, rfl⟩

/-- A token that satisfies `p` comes first, and `r` is behind it. -/
abbrev Takes (p : Token → Bool) (ts r : List Token) : Prop := ∃ t, ts = t :: r ∧ p t = true

theorem Takes.length_lt {p : Token → Bool} {ts r : List Token} (h : Takes p ts r) :
    r.length < ts.length := by
  obtain ⟨t, rfl, -⟩ := h
  exact tail_shorter t r

theorem Takes.first {p : Token → Bool} {t : Token} {ts r : List Token} (h : Takes p (t :: ts) r) :
    p t = true := by
  obtain ⟨_, hcons, ht⟩ := h
  cases hcons
  exact ht

theorem Takes.suffix {p : Token → Bool} {ts r : List Token} (h : Takes p ts r) : r <:+ ts := by
  obtain ⟨t, rfl, -⟩ := h
  exact List.suffix_cons t r

theorem Takes.unique {p q : Token → Bool} {ts r r' : List Token} (h : Takes p ts r)
    (h' : Takes q ts r') : r = r' := by
  obtain ⟨t, rfl, -⟩ := h
  obtain ⟨t', h', -⟩ := h'
  cases h'
  rfl

/-- The reader gives a token with the characters `x` and leaves `r`. -/
abbrev Names {ts : List Token} (p : Except ParseError (Parsed Token ts)) (x : String)
    (r : List Token) : Prop :=
  ∃ t, Gives p t r ∧ t.lexeme = x

theorem Names.unique {ts r r' : List Token} {p : Except ParseError (Parsed Token ts)} {x x' : String}
    (h : Names p x r) (h' : Names p x' r') : x = x' ∧ r = r' := by
  obtain ⟨t, h, rfl⟩ := h
  obtain ⟨t', h', rfl⟩ := h'
  obtain ⟨rfl, rfl⟩ := h.unique h'
  exact ⟨rfl, rfl⟩

theorem eatIf_cases (p : Token → Bool) (ts : List Token) :
    (ts.head?.any p = false ∧ eatIf p ts = none) ∨
      ∃ t r, ts = t :: r ∧ p t = true ∧ ∃ h, eatIf p ts = some ⟨r, h⟩ := by
  cases ts with
  | nil => exact .inl ⟨rfl, rfl⟩
  | cons t r =>
    cases ht : p t with
    | false => exact .inl ⟨by simp [ht], by simp [eatIf, ht]⟩
    | true => exact .inr ⟨t, r, rfl, ht, tail_shorter t r, by simp [eatIf, ht]⟩

theorem eat_cases (sign : String) (ts : List Token) :
    (startsWith sign ts = false ∧ eat sign ts = none) ∨
      ∃ t r, ts = t :: r ∧ t.isPunct sign = true ∧ ∃ h, eat sign ts = some ⟨r, h⟩ :=
  eatIf_cases _ ts

theorem eatIf_of_true {p : Token → Bool} {t : Token} (h : p t = true) (r : List Token) :
    eatIf p (t :: r) = some ⟨r, tail_shorter t r⟩ := by
  simp [eatIf, h]

theorem eatIf_of_not {p : Token → Bool} {ts : List Token} (h : ts.head?.any p = false) :
    eatIf p ts = none := by
  cases ts with
  | nil => rfl
  | cons t r =>
    have ht : p t = false := by simpa using h
    simp [eatIf, ht]

theorem eat_of_isPunct {sign : String} {t : Token} (h : t.isPunct sign = true) (r : List Token) :
    eat sign (t :: r) = some ⟨r, tail_shorter t r⟩ :=
  eatIf_of_true h r

theorem eat_of_not_startsWith {sign : String} {ts : List Token} (h : startsWith sign ts = false) :
    eat sign ts = none :=
  eatIf_of_not h

theorem startsWith_of_takes {x : String} {ts r : List Token}
    (h : Takes (·.isPunct x) ts r) : startsWith x ts = true := by
  obtain ⟨t, rfl, ht⟩ := h
  simpa [startsWith] using ht

theorem skip_cases (sign : String) (ts : List Token) :
    (startsWith sign ts = false ∧ (skip sign ts).val = ts) ∨
      Takes (·.isPunct sign) ts (skip sign ts).val := by
  rw [skip]
  obtain ⟨hs, h⟩ | ⟨t, m, rfl, ht, h', h⟩ := eat_cases sign ts
  · exact .inl ⟨hs, by rw [h]⟩
  · exact .inr ⟨t, by rw [h]; rfl, ht⟩

theorem skip_suffix (sign : String) (ts : List Token) : (skip sign ts).val <:+ ts := by
  obtain ⟨-, h⟩ | h := skip_cases sign ts
  · exact h.symm ▸ List.suffix_rfl
  · exact h.suffix

theorem leaves_expectSign {sign : String} {e : Expectation} {ts r : List Token} :
    Leaves (expectSign sign e ts) r ↔ Takes (·.isPunct sign) ts r := by
  unfold Leaves expectSign
  constructor
  · rintro ⟨⟨_, h⟩, he, rfl⟩
    obtain ⟨-, hq⟩ | ⟨t, r, rfl, ht, h', hq⟩ := eat_cases sign ts
    · rw [hq] at he
      cases he
    · rw [hq] at he
      cases he
      exact ⟨t, rfl, ht⟩
  · rintro ⟨t, rfl, ht⟩
    exact ⟨_, by rw [eat_of_isPunct ht], rfl⟩

theorem gives_expectKind {kind : TokenKind} {e : Expectation} {ts r : List Token} {t : Token} :
    Gives (expectKind kind e ts) t r ↔ ts = t :: r ∧ t.kind = kind := by
  unfold Gives
  cases ts with
  | nil => simp [expectKind]
  | cons u ts =>
    rw [expectKind]
    by_cases hk : u.kind = kind
    · rw [if_pos hk]
      constructor
      · rintro ⟨b, hb, rfl, rfl⟩
        cases hb
        exact ⟨rfl, hk⟩
      · rintro ⟨h, -⟩
        cases h
        exact ⟨_, rfl, rfl, rfl⟩
    · rw [if_neg hk]
      constructor
      · rintro ⟨b, hb, -⟩
        cases hb
      · rintro ⟨h, hk'⟩
        cases h
        exact absurd hk' hk

theorem content_of_isPunct {sign : String} {t : Token} (h : t.isPunct sign = true) :
    t.content = (.punct, sign) := by
  simp only [Token.isPunct, Bool.and_eq_true, beq_iff_eq] at h
  rw [Token.content, h.1, h.2]

theorem isPunct_of_content {sign : String} {t : Token} (h : t.content = (.punct, sign)) :
    t.isPunct sign = true := by
  have hk : t.kind = .punct := congrArg Prod.fst h
  have hl : t.lexeme = sign := congrArg Prod.snd h
  simp [Token.isPunct, hk, hl]

/-- A token with a lexeme, wherever it stands. -/
def someToken (x : Lexeme) : Token := ⟨x.1, x.2, .origin⟩

theorem content_someTokens (ls : List Lexeme) : (ls.map someToken).map Token.content = ls := by
  rw [List.map_map]
  exact List.map_id ls

/-- The first lexeme of a list of tokens. -/
def headContent (ts : List Token) : Option Lexeme := ts.head?.map Token.content

theorem headContent_append {u u' r r' : List Token}
    (hu : u'.map Token.content = u.map Token.content) (hr : headContent r' = headContent r) :
    headContent (u' ++ r') = headContent (u ++ r) := by
  cases u with
  | nil =>
    obtain rfl : u' = [] := by simpa using hu
    exact hr
  | cons t u =>
    obtain ⟨t', u', rfl, ht, -⟩ := List.map_eq_cons_iff.mp hu
    simp [headContent, ht]

/-- The sign that ends a leaf. -/
def semicolon : Lexeme := (.punct, ";")

/-- From `ts` on, `P` passes tokens of which none is a semicolon, and does the same with any rest that
starts with the same lexeme. -/
def Local (P : List Token → List Token → Prop) (ts : List Token) : Prop :=
  ∀ r, P ts r → ∃ u, ts = u ++ r ∧ (∀ t ∈ u, t.content ≠ semicolon) ∧
    ∀ u' r', u'.map Token.content = u.map Token.content → headContent r' = headContent r →
      P (u' ++ r') r'

namespace Local

variable {P Q : List Token → List Token → Prop} {ts : List Token} {p : Token → Bool}

theorem of_iff (h : ∀ ts r, P ts r ↔ Q ts r) (hQ : Local Q ts) : Local P ts := by
  intro r hr
  obtain ⟨u, hu, hsemi, hlocal⟩ := hQ r ((h _ _).mp hr)
  exact ⟨u, hu, hsemi, fun u' r' hu' hr' => (h _ _).mpr (hlocal u' r' hu' hr')⟩

theorem seq (hP : Local P ts) (hQ : ∀ m, P ts m → Local Q m) :
    Local (fun ts r => ∃ m, P ts m ∧ Q m r) ts := by
  rintro r ⟨m, hp, hq⟩
  obtain ⟨u, hu, husemi, hP'⟩ := hP m hp
  obtain ⟨v, rfl, hvsemi, hQ'⟩ := hQ m hp r hq
  refine ⟨u ++ v, by rw [hu, List.append_assoc], ?_, fun w r' hw hr' => ?_⟩
  · intro t ht
    exact (List.mem_append.mp ht).elim (husemi t) (hvsemi t)
  · rw [List.map_append] at hw
    obtain ⟨u', v', rfl, hu', hv'⟩ := List.map_eq_append_iff.mp hw
    have hhead := headContent_append hv' hr'
    refine ⟨v' ++ r', ?_, hQ' v' r' hv' hr'⟩
    rw [List.append_assoc]
    exact hP' u' _ hu' hhead

theorem or (hP : Local P ts) (hQ : Local Q ts) : Local (fun ts r => P ts r ∨ Q ts r) ts := by
  rintro r (h | h)
  · obtain ⟨u, hu, hsemi, hlocal⟩ := hP r h
    exact ⟨u, hu, hsemi, fun u' r' hu' hr' => .inl (hlocal u' r' hu' hr')⟩
  · obtain ⟨u, hu, hsemi, hlocal⟩ := hQ r h
    exact ⟨u, hu, hsemi, fun u' r' hu' hr' => .inr (hlocal u' r' hu' hr')⟩

theorem any {α : Type} {P : α → List Token → List Token → Prop} (h : ∀ x, Local (P x) ts) :
    Local (fun ts r => ∃ x, P x ts r) ts := by
  rintro r ⟨x, hx⟩
  obtain ⟨u, hu, hsemi, hlocal⟩ := h x r hx
  exact ⟨u, hu, hsemi, fun u' r' hu' hr' => ⟨x, hlocal u' r' hu' hr'⟩⟩

/-- A test of the first token sees its lexeme only. -/
theorem any_eq (hp : ∀ t, p t = p ⟨t.content.1, t.content.2, .origin⟩) {r r' : List Token}
    (h : headContent r' = headContent r) : r'.head?.any p = r.head?.any p := by
  unfold headContent at h
  cases hr : r.head? with
  | none =>
    rw [hr, Option.map_none, Option.map_eq_none_iff] at h
    rw [h]
  | some t =>
    rw [hr, Option.map_some] at h
    obtain ⟨t', ht', hc⟩ := Option.map_eq_some_iff.mp h
    rw [ht', Option.any_some, Option.any_some, hp t, hp t', hc]

/-- What is read only if a token does, or does not, come first. -/
theorem guard (hp : ∀ t, p t = p ⟨t.content.1, t.content.2, .origin⟩) (b : Bool) (hP : Local P ts) :
    Local (fun ts r => ts.head?.any p = b ∧ P ts r) ts := by
  rintro r ⟨hb, h⟩
  obtain ⟨u, rfl, hsemi, hlocal⟩ := hP r h
  refine ⟨u, rfl, hsemi, fun u' r' hu' hr' => ⟨?_, hlocal u' r' hu' hr'⟩⟩
  rw [any_eq hp (headContent_append hu' hr')]
  exact hb

/-- What is read only if a token does, or does not, come behind it. -/
theorem followed (hp : ∀ t, p t = p ⟨t.content.1, t.content.2, .origin⟩) (b : Bool)
    (hP : Local P ts) : Local (fun ts r => P ts r ∧ r.head?.any p = b) ts := by
  rintro r ⟨h, hb⟩
  obtain ⟨u, hu, hsemi, hlocal⟩ := hP r h
  refine ⟨u, hu, hsemi, fun u' r' hu' hr' => ⟨hlocal u' r' hu' hr', ?_⟩⟩
  rw [any_eq hp hr']
  exact hb

theorem stay : Local (fun ts r => ts = r) ts := by
  rintro r rfl
  refine ⟨[], rfl, by simp, fun u' r' hu' _ => ?_⟩
  obtain rfl : u' = [] := by simpa using hu'
  rfl

/-- Nothing is read, because a token does not come first. -/
theorem without (hp : ∀ t, p t = p ⟨t.content.1, t.content.2, .origin⟩) :
    Local (fun ts r => ts.head?.any p = false ∧ ts = r) ts :=
  guard hp false stay

theorem token (hp : ∀ t, p t = p ⟨t.content.1, t.content.2, .origin⟩)
    (hsemi : p ⟨semicolon.1, semicolon.2, .origin⟩ = false) :
    Local (Takes p) ts := by
  rintro r ⟨t, rfl, ht⟩
  refine ⟨[t], rfl, ?_, fun u' r' hu' _ => ?_⟩
  · rintro t' ht'
    obtain rfl : t' = t := by simpa using ht'
    intro hc
    rw [hp, hc, hsemi] at ht
    cases ht
  · obtain ⟨t', u'', rfl, hc, hnil⟩ := List.map_eq_cons_iff.mp hu'
    obtain rfl : u'' = [] := by simpa using hnil
    exact ⟨t', rfl, by rw [hp, hc, ← hp]; exact ht⟩

theorem when (c : Prop) (hP : Local P ts) : Local (fun ts r => c ∧ P ts r) ts := by
  rintro r ⟨hc, h⟩
  obtain ⟨u, hu, hsemi, hlocal⟩ := hP r h
  exact ⟨u, hu, hsemi, fun u' r' hu' hr' => ⟨hc, hlocal u' r' hu' hr'⟩⟩

/-- The text that is read stays the same as well. -/
theorem joined (c : String → Prop) (hP : Local P ts) :
    Local (fun ts r => P ts r ∧ c (joinedTo ts r)) ts := by
  rintro r ⟨h, hc⟩
  obtain ⟨u, rfl, hsemi, hlocal⟩ := hP r h
  refine ⟨u, rfl, hsemi, fun u' r' hu' hr' => ⟨hlocal u' r' hu' hr', ?_⟩⟩
  have hlex : u'.map Token.lexeme = u.map Token.lexeme := by
    have hsnd := congrArg (List.map Prod.snd) hu'
    rw [List.map_map, List.map_map] at hsnd
    exact hsnd
  have hjoin : joinedTo (u' ++ r') r' = joinedTo (u ++ r) r := by simp [joinedTo, hlex]
  rwa [hjoin]

theorem sign {sign : String} {e : Expectation} (h : sign ≠ ";") :
    Local (fun ts r => Leaves (expectSign sign e ts) r) ts := by
  apply of_iff fun ts r => leaves_expectSign
  apply token fun _ => rfl
  simp [Token.isPunct, semicolon, Ne.symm h]

theorem names {kind : TokenKind} {e : Expectation} (h : kind ≠ .punct) (x : String) :
    Local (fun ts r => Names (expectKind kind e ts) x r) ts := by
  have hiff (ts r : List Token) : Names (expectKind kind e ts) x r ↔
      Takes (fun t => t.kind == kind && t.lexeme == x) ts r := by
    simp only [gives_expectKind, Names, Takes, Bool.and_eq_true, beq_iff_eq, and_assoc]
  apply of_iff hiff
  apply token fun _ => rfl
  simp [semicolon, Ne.symm h]

theorem run (hp : ∀ t, p t = p ⟨t.content.1, t.content.2, .origin⟩)
    (hsemi : p ⟨semicolon.1, semicolon.2, .origin⟩ = false) :
    Local (fun ts r => ts.dropWhile p = r) ts := by
  rintro r rfl
  refine ⟨ts.takeWhile p, List.takeWhile_append_dropWhile.symm, ?_, fun u' r' hu' hr' => ?_⟩
  · intro t ht hc
    have := List.all_eq_true.mp List.all_takeWhile t ht
    rw [hp, hc, hsemi] at this
    cases this
  · have hall : ∀ t ∈ u', p t = true := by
      intro t ht
      have hmem : t.content ∈ (ts.takeWhile p).map Token.content :=
        hu' ▸ List.mem_map_of_mem ht
      obtain ⟨t', ht', hc⟩ := List.mem_map.mp hmem
      rw [hp, ← hc, ← hp]
      exact List.all_eq_true.mp List.all_takeWhile t' ht'
    have hstop : r'.head?.any p = false := by
      rw [any_eq hp hr']
      have := List.head?_dropWhile_not p ts
      cases hd : (ts.dropWhile p).head? with
      | none => rfl
      | some t => simpa [hd] using this
    show (u' ++ r').dropWhile p = r'
    rw [List.dropWhile_append_of_pos hall]
    cases r' with
    | nil => rfl
    | cons t r' => rw [List.dropWhile_cons_of_neg (by simpa using hstop)]

end Local

/-- From `ts` on, `P` passes tokens and does the same whatever stands behind them. -/
def Enclosed (P : List Token → List Token → Prop) (ts : List Token) : Prop :=
  ∀ r, P ts r → ∃ u, u ≠ [] ∧ ts = u ++ r ∧
    ∀ u' r', u'.map Token.content = u.map Token.content → P (u' ++ r') r'

namespace Enclosed

variable {P Q : List Token → List Token → Prop} {ts : List Token} {p : Token → Bool}

theorem length_lt {r : List Token} (h : Enclosed P ts) (hr : P ts r) : r.length < ts.length := by
  obtain ⟨u, hne, rfl, -⟩ := h r hr
  rw [List.length_append]
  exact Nat.lt_add_of_pos_left (List.length_pos_iff.mpr hne)

theorem of_iff (h : ∀ ts r, P ts r ↔ Q ts r) (hQ : Enclosed Q ts) : Enclosed P ts := by
  intro r hr
  obtain ⟨u, hne, hu, hlocal⟩ := hQ r ((h _ _).mp hr)
  exact ⟨u, hne, hu, fun u' r' hu' => (h _ _).mpr (hlocal u' r' hu')⟩

theorem seq (hP : Enclosed P ts) (hQ : ∀ m, P ts m → Enclosed Q m) :
    Enclosed (fun ts r => ∃ m, P ts m ∧ Q m r) ts := by
  rintro r ⟨m, hp, hq⟩
  obtain ⟨u, hne, hu, hP'⟩ := hP m hp
  obtain ⟨v, -, rfl, hQ'⟩ := hQ m hp r hq
  refine ⟨u ++ v, by simp [hne], by rw [hu, List.append_assoc], fun w r' hw => ?_⟩
  rw [List.map_append] at hw
  obtain ⟨u', v', rfl, hu', hv'⟩ := List.map_eq_append_iff.mp hw
  refine ⟨v' ++ r', ?_, hQ' v' r' hv'⟩
  rw [List.append_assoc]
  exact hP' u' _ hu'

/-- What `P` needs to see behind what it passes belongs to what `Q` passes. -/
theorem after (hP : Local P ts) (hQ : ∀ m, P ts m → Enclosed Q m) :
    Enclosed (fun ts r => ∃ m, P ts m ∧ Q m r) ts := by
  rintro r ⟨m, hp, hq⟩
  obtain ⟨u, hu, -, hP'⟩ := hP m hp
  obtain ⟨v, hne, rfl, hQ'⟩ := hQ m hp r hq
  refine ⟨u ++ v, by simp [hne], by rw [hu, List.append_assoc], fun w r' hw => ?_⟩
  rw [List.map_append] at hw
  obtain ⟨u', v', rfl, hu', hv'⟩ := List.map_eq_append_iff.mp hw
  have hhead : headContent (v' ++ r') = headContent (v ++ r) := by
    obtain ⟨t, v, rfl⟩ := List.exists_cons_of_ne_nil hne
    obtain ⟨t', v', rfl, ht, -⟩ := List.map_eq_cons_iff.mp hv'
    exact congrArg some ht
  refine ⟨v' ++ r', ?_, hQ' v' r' hv'⟩
  rw [List.append_assoc]
  exact hP' u' _ hu' hhead

theorem or (hP : Enclosed P ts) (hQ : Enclosed Q ts) :
    Enclosed (fun ts r => P ts r ∨ Q ts r) ts := by
  rintro r (h | h)
  · obtain ⟨u, hne, hu, hlocal⟩ := hP r h
    exact ⟨u, hne, hu, fun u' r' hu' => .inl (hlocal u' r' hu')⟩
  · obtain ⟨u, hne, hu, hlocal⟩ := hQ r h
    exact ⟨u, hne, hu, fun u' r' hu' => .inr (hlocal u' r' hu')⟩

theorem any {α : Type} {P : α → List Token → List Token → Prop} (h : ∀ x, Enclosed (P x) ts) :
    Enclosed (fun ts r => ∃ x, P x ts r) ts := by
  rintro r ⟨x, hx⟩
  obtain ⟨u, hne, hu, hlocal⟩ := h x r hx
  exact ⟨u, hne, hu, fun u' r' hu' => ⟨x, hlocal u' r' hu'⟩⟩

theorem when (c : Prop) (hP : Enclosed P ts) : Enclosed (fun ts r => c ∧ P ts r) ts := by
  rintro r ⟨hc, h⟩
  obtain ⟨u, hne, hu, hlocal⟩ := hP r h
  exact ⟨u, hne, hu, fun u' r' hu' => ⟨hc, hlocal u' r' hu'⟩⟩

theorem token (hp : ∀ t, p t = p ⟨t.content.1, t.content.2, .origin⟩) : Enclosed (Takes p) ts := by
  rintro r ⟨t, rfl, ht⟩
  refine ⟨[t], by simp, rfl, fun u' r' hu' => ?_⟩
  obtain ⟨t', u'', rfl, hc, hnil⟩ := List.map_eq_cons_iff.mp hu'
  obtain rfl : u'' = [] := by simpa using hnil
  exact ⟨t', rfl, by rw [hp, hc, ← hp]; exact ht⟩

end Enclosed

end ModWeave
