import ModWeave.Proofs.Tree.Reading
import ModWeave.Tree.Expression

/-! Expressions read the same wherever they stand: what a reader passes depends on the lexemes that it
passes and the one behind them. -/
namespace ModWeave.Script

/-- The reader of values gives the text of the first one and leaves `r`. -/
def GivesValues {ts : List Token} (p : Except ParseError (Values ts)) (first : Option String)
    (r : List Token) : Prop :=
  ∃ a, p = .ok a ∧ a.first = first ∧ a.rest = r

variable {ts r : List Token}

theorem isPunct_ne {t : Token} {a b : String} (h : t.isPunct a = true) (hab : a ≠ b) :
    t.isPunct b = false := by
  simp only [Token.isPunct, Bool.and_eq_true, beq_iff_eq] at h
  simp [Token.isPunct, h, hab]

theorem expression_iff (ts r : List Token) : Leaves (expression ts) r ↔
    ∃ m, Leaves (operand ts) m ∧ ∃ k, LeavesAny (operations m) k ∧
      ((startsWith "?" k = false ∧ k = r) ∨
        ∃ a, Takes (·.isPunct "?") k a ∧ ∃ b, Leaves (expression a) b ∧
          ∃ c, Leaves (expect ":" b) c ∧ Leaves (expression c) r) := by
  rw [expression]
  constructor
  · rintro ⟨_, he, rfl⟩
    obtain ⟨m, ho, he⟩ := bind_eq_ok.mp he
    obtain ⟨⟨k, hk⟩, hop, he⟩ := bind_eq_ok.mp he
    refine ⟨_, ⟨m, ho, rfl⟩, k, ⟨_, hop, rfl⟩, ?_⟩
    simp only [Remainder.afterSome] at he
    obtain ⟨hs, hq⟩ | ⟨t, a, rfl, ht, h', hq⟩ := eat_cases "?" k
    · rw [hq] at he
      cases he
      exact .inl ⟨hs, rfl⟩
    · rw [hq] at he
      obtain ⟨b, h1, he⟩ := bind_eq_ok.mp he
      obtain ⟨c, h2, he⟩ := bind_eq_ok.mp he
      obtain ⟨d, h3, he⟩ := bind_eq_ok.mp he
      cases he
      exact .inr ⟨a, ⟨t, rfl, ht⟩, _, ⟨b, h1, rfl⟩, _, ⟨c, h2, rfl⟩, d, h3, rfl⟩
  · rintro ⟨_, ⟨m, ho, rfl⟩, _, ⟨⟨k, hk⟩, hop, rfl⟩, h⟩
    obtain ⟨hs, rfl⟩ | ⟨a, ⟨t, rfl, ht⟩, _, ⟨b, h1, rfl⟩, _, ⟨c, h2, rfl⟩, d, h3, rfl⟩ := h
    · refine bind_succeeds ho (bind_succeeds hop ?_)
      simp only [Remainder.afterSome]
      rw [eat_of_not_startsWith hs]
      exact ⟨_, rfl, rfl⟩
    · refine bind_succeeds ho (bind_succeeds hop ?_)
      simp only [Remainder.afterSome]
      rw [eat_of_isPunct ht]
      exact bind_succeeds h1 (bind_succeeds h2 (bind_succeeds h3 ⟨_, rfl, rfl⟩))

theorem operations_iff (ts r : List Token) : LeavesAny (operations ts) r ↔
    (ts.head?.any isBinaryOperator = false ∧ ts = r) ∨
      ∃ m, Takes isBinaryOperator ts m ∧
        ∃ k, Leaves (operand m) k ∧ LeavesAny (operations k) r := by
  rw [operations]
  constructor
  · rintro ⟨_, he, rfl⟩
    obtain ⟨hs, hq⟩ | ⟨t, a, rfl, ht, h', hq⟩ := eatIf_cases isBinaryOperator ts
    · rw [hq] at he
      cases he
      exact .inl ⟨hs, rfl⟩
    · rw [hq] at he
      obtain ⟨b, h1, he⟩ := bind_eq_ok.mp he
      obtain ⟨c, h2, he⟩ := bind_eq_ok.mp he
      cases he
      exact .inr ⟨a, ⟨t, rfl, ht⟩, _, ⟨b, h1, rfl⟩, c, h2, rfl⟩
  · rintro (⟨hs, rfl⟩ | ⟨m, ⟨t, rfl, ht⟩, _, ⟨b, h1, rfl⟩, c, h2, rfl⟩)
    · rw [eatIf_of_not hs]
      exact ⟨_, rfl, rfl⟩
    · rw [eatIf_of_true ht]
      exact bind_succeeds h1 (bind_succeeds h2 ⟨_, rfl, rfl⟩)

theorem operand_iff (ts r : List Token) : Leaves (operand ts) r ↔
    ∃ m, ts.dropWhile isUnaryOperator = m ∧
      ∃ k, Leaves (primary m) k ∧ LeavesAny (accesses k) r := by
  rw [operand]
  constructor
  · rintro ⟨_, he, rfl⟩
    obtain ⟨b, h1, he⟩ := bind_eq_ok.mp he
    obtain ⟨c, h2, he⟩ := bind_eq_ok.mp he
    cases he
    exact ⟨_, rfl, _, ⟨b, h1, rfl⟩, c, h2, rfl⟩
  · rintro ⟨_, rfl, _, ⟨b, h1, rfl⟩, c, h2, rfl⟩
    exact bind_succeeds h1 (bind_succeeds h2 ⟨_, rfl, rfl⟩)

theorem accesses_iff (ts r : List Token) : LeavesAny (accesses ts) r ↔
    (∃ m, Takes (·.isPunct ".") ts m ∧ ∃ k, (∃ x, Names (expectKind .ident .fieldName m) x k) ∧
      LeavesAny (accesses k) r) ∨
    (∃ m, Takes (·.isPunct "(") ts m ∧ ∃ k, (∃ f, GivesValues (values ")" m) f k) ∧
      ∃ l, Leaves (expect ")" k) l ∧ LeavesAny (accesses l) r) ∨
    (∃ m, Takes (·.isPunct "[") ts m ∧ ∃ k, Leaves (expression m) k ∧
      ∃ l, Leaves (expect "]" k) l ∧ LeavesAny (accesses l) r) ∨
    (startsWith "." ts = false ∧ startsWith "(" ts = false ∧ startsWith "[" ts = false ∧ ts = r) := by
  rw [accesses]
  constructor
  · rintro ⟨_, he, rfl⟩
    obtain ⟨hs1, hq⟩ | ⟨t, a, rfl, ht, h', hq⟩ := eat_cases "." ts
    · rw [hq] at he
      obtain ⟨hs2, hq⟩ | ⟨t, a, rfl, ht, h', hq⟩ := eat_cases "(" ts
      · rw [hq] at he
        obtain ⟨hs3, hq⟩ | ⟨t, a, rfl, ht, h', hq⟩ := eat_cases "[" ts
        · rw [hq] at he
          cases he
          exact .inr (.inr (.inr ⟨hs1, hs2, hs3, rfl⟩))
        · rw [hq] at he
          obtain ⟨b, h1, he⟩ := bind_eq_ok.mp he
          obtain ⟨c, h2, he⟩ := bind_eq_ok.mp he
          obtain ⟨d, h3, he⟩ := bind_eq_ok.mp he
          cases he
          exact .inr (.inr (.inl ⟨a, ⟨t, rfl, ht⟩, _, ⟨b, h1, rfl⟩, _, ⟨c, h2, rfl⟩, d, h3, rfl⟩))
      · rw [hq] at he
        obtain ⟨b, h1, he⟩ := bind_eq_ok.mp he
        obtain ⟨c, h2, he⟩ := bind_eq_ok.mp he
        obtain ⟨d, h3, he⟩ := bind_eq_ok.mp he
        cases he
        exact .inr (.inl ⟨a, ⟨t, rfl, ht⟩, _, ⟨_, b, h1, rfl, rfl⟩, _, ⟨c, h2, rfl⟩, d, h3, rfl⟩)
    · rw [hq] at he
      obtain ⟨b, h1, he⟩ := bind_eq_ok.mp he
      obtain ⟨c, h2, he⟩ := bind_eq_ok.mp he
      cases he
      exact .inl ⟨_, ⟨t, rfl, ht⟩, _, ⟨_, _, ⟨b, h1, rfl, rfl⟩, rfl⟩, c, h2, rfl⟩
  · rintro (⟨m, ⟨t, rfl, ht⟩, _, ⟨_, _, ⟨b, h1, rfl, rfl⟩, rfl⟩, c, h2, rfl⟩ |
      ⟨m, ⟨t, rfl, ht⟩, _, ⟨_, b, h1, rfl, rfl⟩, _, ⟨c, h2, rfl⟩, d, h3, rfl⟩ |
      ⟨m, ⟨t, rfl, ht⟩, _, ⟨b, h1, rfl⟩, _, ⟨c, h2, rfl⟩, d, h3, rfl⟩ | ⟨hs1, hs2, hs3, rfl⟩)
    · rw [eat_of_isPunct ht]
      exact bind_succeeds h1 (bind_succeeds h2 ⟨_, rfl, rfl⟩)
    · have hs1 : startsWith "." (t :: m) = false := isPunct_ne ht (by decide)
      rw [eat_of_not_startsWith hs1, eat_of_isPunct ht]
      exact bind_succeeds h1 (bind_succeeds h2 (bind_succeeds h3 ⟨_, rfl, rfl⟩))
    · have hs1 : startsWith "." (t :: m) = false := isPunct_ne ht (by decide)
      have hs2 : startsWith "(" (t :: m) = false := isPunct_ne ht (by decide)
      rw [eat_of_not_startsWith hs1, eat_of_not_startsWith hs2, eat_of_isPunct ht]
      exact bind_succeeds h1 (bind_succeeds h2 (bind_succeeds h3 ⟨_, rfl, rfl⟩))
    · rw [eat_of_not_startsWith hs1, eat_of_not_startsWith hs2, eat_of_not_startsWith hs3]
      exact ⟨_, rfl, rfl⟩

theorem primary_iff (ts r : List Token) : Leaves (primary ts) r ↔
    Takes (fun t => t.kind == .number || t.kind == .str || t.kind == .macroName) ts r ∨
    (∃ m, Takes (·.kind == .ident) ts m ∧ ((startsWith "::" m = false ∧ m = r) ∨
      ∃ k, Takes (·.isPunct "::") m k ∧ ∃ x, Names (expectKind .ident .memberName k) x r)) ∨
    (∃ m, Takes (·.isPunct "(") ts m ∧ ∃ k, Leaves (expression m) k ∧ Leaves (expect ")" k) r) ∨
    (∃ m, Takes (·.isPunct "[") ts m ∧ ∃ k, (∃ f, GivesValues (values "]" m) f k) ∧
      Leaves (expect "]" k) r) := by
  cases ts with
  | nil =>
    rw [primary]
    constructor
    · rintro ⟨_, he, -⟩
      cases he
    · rintro (⟨_, h, -⟩ | ⟨_, ⟨_, h, -⟩, -⟩ | ⟨_, ⟨_, h, -⟩, -⟩ | ⟨_, ⟨_, h, -⟩, -⟩) <;> cases h
  | cons t m =>
    rw [primary]
    constructor
    · rintro ⟨_, he, rfl⟩
      cases hk : t.kind with
      | number | str | macroName =>
        rw [hk] at he
        cases he
        exact .inl ⟨t, rfl, by simp [hk]⟩
      | text =>
        rw [hk] at he
        cases he
      | ident =>
        rw [hk] at he
        simp only at he
        obtain ⟨hs, hq⟩ | ⟨u, a, rfl, hu, h', hq⟩ := eat_cases "::" m
        · rw [hq] at he
          cases he
          exact .inr (.inl ⟨m, ⟨t, rfl, by simp [hk]⟩, .inl ⟨hs, rfl⟩⟩)
        · rw [hq] at he
          obtain ⟨b, h1, he⟩ := bind_eq_ok.mp he
          cases he
          exact .inr (.inl ⟨_, ⟨t, rfl, by simp [hk]⟩,
            .inr ⟨a, ⟨u, rfl, hu⟩, _, _, ⟨b, h1, rfl, rfl⟩, rfl⟩⟩)
      | punct =>
        rw [hk] at he
        simp only at he
        split at he
        · rename_i hl
          obtain ⟨b, h1, he⟩ := bind_eq_ok.mp he
          obtain ⟨c, h2, he⟩ := bind_eq_ok.mp he
          cases he
          have ht : t.isPunct "(" = true := by simp [Token.isPunct, hk, hl]
          exact .inr (.inr (.inl ⟨m, ⟨t, rfl, ht⟩, _, ⟨b, h1, rfl⟩, c, h2, rfl⟩))
        · split at he
          · rename_i hl
            obtain ⟨b, h1, he⟩ := bind_eq_ok.mp he
            obtain ⟨c, h2, he⟩ := bind_eq_ok.mp he
            cases he
            have ht : t.isPunct "[" = true := by simp [Token.isPunct, hk, hl]
            exact .inr (.inr (.inr ⟨m, ⟨t, rfl, ht⟩, _, ⟨_, b, h1, rfl, rfl⟩, c, h2, rfl⟩))
          · cases he
    · rintro (⟨_, h, hk⟩ | ⟨_, ⟨_, h, hk⟩, hm⟩ | ⟨_, ⟨_, h, ht⟩, _, ⟨b, h1, rfl⟩, c, h2, rfl⟩ |
        ⟨_, ⟨_, h, ht⟩, _, ⟨_, b, h1, rfl, rfl⟩, c, h2, rfl⟩)
      · cases h
        cases hkind : t.kind with
        | number | str | macroName => exact ⟨_, rfl, rfl⟩
        | ident | punct | text => simp [hkind] at hk
      · cases h
        rw [beq_iff_eq] at hk
        simp only [hk]
        obtain ⟨hs, rfl⟩ | ⟨k, ⟨u, rfl, hu⟩, _, _, ⟨b, h1, rfl, rfl⟩, rfl⟩ := hm
        · rw [eat_of_not_startsWith hs]
          exact ⟨_, rfl, rfl⟩
        · rw [eat_of_isPunct hu]
          exact bind_succeeds h1 ⟨_, rfl, rfl⟩
      · cases h
        simp only [Token.isPunct, Bool.and_eq_true, beq_iff_eq] at ht
        simp only [ht.1, ht.2, if_true]
        exact bind_succeeds h1 (bind_succeeds h2 ⟨_, rfl, rfl⟩)
      · cases h
        simp only [Token.isPunct, Bool.and_eq_true, beq_iff_eq] at ht
        simp only [ht.1, ht.2, if_true]
        rw [if_neg (by decide)]
        exact bind_succeeds h1 (bind_succeeds h2 ⟨_, rfl, rfl⟩)

/-- Whether a name and `=` come first. -/
def isNamed : List Token → Bool
  | t :: e :: _ => t.kind == .ident && e.isPunct "="
  | _ => false

theorem isNamed_iff : isNamed ts = true ↔
    ∃ t e k, ts = t :: e :: k ∧ (t.kind == .ident) = true ∧ e.isPunct "=" = true := by
  match ts with
  | [] | [_] => simp [isNamed]
  | t :: e :: k => simp [isNamed, and_assoc]

/-- A value, with a name or without. -/
def Item (ts r : List Token) : Prop :=
  (∃ m, Takes (·.kind == .ident) ts m ∧ ∃ k, Takes (·.isPunct "=") m k ∧ Leaves (expression k) r) ∨
    (isNamed ts = false ∧ Leaves (expression ts) r)

private theorem skipValueName_cases (ts : List Token) :
    (∃ t e k, ts = t :: e :: k ∧ (t.kind == .ident) = true ∧ e.isPunct "=" = true ∧
      (skipValueName ts).val = k) ∨ (isNamed ts = false ∧ (skipValueName ts).val = ts) := by
  cases ts with
  | nil => exact .inr ⟨rfl, rfl⟩
  | cons t ts =>
    rw [skipValueName]
    cases hk : t.kind == .ident with
    | false =>
      refine .inr ⟨by cases ts <;> simp [isNamed, hk], ?_⟩
      simp only [Bool.false_eq_true, if_false]
    | true =>
      simp only [if_true]
      obtain ⟨hs, hq⟩ | ⟨e, k, rfl, he, h', hq⟩ := eat_cases "=" ts
      · rw [hq]
        refine .inr ⟨?_, rfl⟩
        cases ts with
        | nil => rfl
        | cons e ts =>
          have he : e.isPunct "=" = false := by simpa [startsWith] using hs
          simp [isNamed, he]
      · rw [hq]
        exact .inl ⟨t, e, k, rfl, hk, he, rfl⟩

theorem item_iff (ts r : List Token) :
    Item ts r ↔ Leaves (expression (skipValueName ts).val) r := by
  obtain ⟨t, e, k, rfl, hk, he, hv⟩ | ⟨hn, hv⟩ := skipValueName_cases ts
  · rw [hv]
    constructor
    · rintro (⟨_, ⟨_, h, -⟩, _, ⟨_, h', -⟩, hr⟩ | ⟨h, -⟩)
      · cases h
        cases h'
        exact hr
      · simp [isNamed, hk, he] at h
    · exact fun h => .inl ⟨_, ⟨t, rfl, hk⟩, k, ⟨e, rfl, he⟩, h⟩
  · rw [hv]
    constructor
    · rintro (⟨_, ⟨t, rfl, hk⟩, _, ⟨e, rfl, he⟩, hr⟩ | ⟨-, h⟩)
      · simp [isNamed, hk, he] at hn
      · exact h
    · exact fun h => .inr ⟨hn, h⟩

theorem values_of_startsWith {close : String} (hs : startsWith close ts = true) :
    values close ts = .ok ⟨none, ts, self_atMost ts⟩ := by
  rw [values, if_pos hs]
  rfl

theorem values_iff {close : String} {f : Option String} :
    GivesValues (values close ts) f r ↔
      (startsWith close ts = true ∧ f = none ∧ ts = r) ∨
      (startsWith close ts = false ∧
        ∃ k, (Item ts k ∧ some (joinedTo ts k) = f) ∧ ((startsWith "," k = false ∧ k = r) ∨
          ∃ m, Takes (·.isPunct ",") k m ∧ ∃ f, GivesValues (values close m) f r)) := by
  cases hs : startsWith close ts with
  | true =>
    rw [values_of_startsWith hs]
    constructor
    · rintro ⟨_, he, rfl, rfl⟩
      cases he
      exact .inl ⟨rfl, rfl, rfl⟩
    · rintro (⟨-, rfl, rfl⟩ | ⟨h, -⟩)
      · exact ⟨_, rfl, rfl, rfl⟩
      · cases h
  | false =>
  simp only [Bool.false_eq_true, false_and, true_and, false_or]
  rw [values, if_neg (by simp [hs])]
  constructor
  · rintro ⟨_, he, rfl, rfl⟩
    obtain ⟨⟨k, hk⟩, h1, he⟩ := bind_eq_ok.mp he
    simp only [Rest.afterAny] at he
    obtain ⟨hs, hq⟩ | ⟨t, m, rfl, ht, h', hq⟩ := eat_cases "," k
    · rw [hq] at he
      cases he
      exact ⟨k, ⟨(item_iff ts k).mpr ⟨_, h1, rfl⟩, rfl⟩, .inl ⟨hs, rfl⟩⟩
    · rw [hq] at he
      obtain ⟨b, h2, he⟩ := bind_eq_ok.mp he
      cases he
      exact ⟨t :: m, ⟨(item_iff ts _).mpr ⟨_, h1, rfl⟩, rfl⟩,
        .inr ⟨m, ⟨t, rfl, ht⟩, _, b, h2, rfl, rfl⟩⟩
  · rintro ⟨k, ⟨hitem, rfl⟩, h⟩
    obtain ⟨⟨_, hk⟩, h1, rfl⟩ := (item_iff ts k).mp hitem
    refine bind_succeeds h1 ?_
    simp only [Rest.afterAny]
    obtain ⟨hs, rfl⟩ | ⟨m, ⟨t, rfl, ht⟩, _, b, h2, -, rfl⟩ := h
    · rw [eat_of_not_startsWith hs]
      exact ⟨_, rfl, rfl, rfl⟩
    · rw [eat_of_isPunct ht]
      exact bind_succeeds h2 ⟨_, rfl, rfl, rfl⟩

/-- The expressions, and the lists of values, from `ts` on depend on what they pass. -/
structure ExpressionsLocal (ts : List Token) : Prop where
  expression : Local (fun ts r => Leaves (expression ts) r) ts
  operations : Local (fun ts r => LeavesAny (operations ts) r) ts
  operand : Local (fun ts r => Leaves (operand ts) r) ts
  accesses : Local (fun ts r => LeavesAny (accesses ts) r) ts
  primary : Local (fun ts r => Leaves (primary ts) r) ts
  values (close : String) (first : Option String) :
    Local (fun ts r => GivesValues (values close ts) first r) ts

theorem GivesValues.length_le {p : Except ParseError (Values ts)} {f : Option String}
    (h : GivesValues p f r) : r.length ≤ ts.length := by
  obtain ⟨a, -, -, rfl⟩ := h
  exact a.atMost

theorem isNamed_cons (t : Token) (ts : List Token) :
    isNamed (t :: ts) = (t.kind == .ident && startsWith "=" ts) := by
  cases ts <;> simp [isNamed, startsWith]

theorem Item.length_lt (h : Item ts r) : r.length < ts.length := by
  obtain ⟨m, hm, k, hk, hr⟩ | ⟨-, hr⟩ := h
  · have h1 := hm.length_lt
    have h2 := hk.length_lt
    have h3 := hr.length_lt
    omega
  · exact hr.length_lt

/-! One case for each reader, where whatever is shorter than `ts` is read for itself. -/

section Shorter

variable {ts : List Token} (ih : ∀ m : List Token, m.length < ts.length → ExpressionsLocal m)

include ih

private theorem local_accesses : Local (fun ts r => LeavesAny (accesses ts) r) ts := by
  apply Local.of_iff accesses_iff
  refine .or (.seq (.token (fun _ => rfl) rfl) fun m hm => ?_)
    (.or (.seq (.token (fun _ => rfl) rfl) fun m hm => ?_)
    (.or (.seq (.token (fun _ => rfl) rfl) fun m hm => ?_)
    (.guard (fun _ => rfl) _ (.guard (fun _ => rfl) _ (.guard (fun _ => rfl) _ .stay)))))
  · have h1 := hm.length_lt
    refine .seq (.any fun x => .names (by decide) x) fun k ⟨_, _, hk, _⟩ => ?_
    have h2 := hk.length_lt
    exact (ih k (by omega)).accesses
  · have h1 := hm.length_lt
    refine .seq (.any fun f => (ih m h1).values ")" f) fun k ⟨_, hk⟩ => ?_
    have h2 := hk.length_le
    refine .seq (Local.sign (by decide)) fun l hl => ?_
    have h3 := hl.length_lt
    exact (ih l (by omega)).accesses
  · have h1 := hm.length_lt
    refine .seq (ih m h1).expression fun k hk => ?_
    have h2 := hk.length_lt
    refine .seq (Local.sign (by decide)) fun l hl => ?_
    have h3 := hl.length_lt
    exact (ih l (by omega)).accesses

private theorem local_primary : Local (fun ts r => Leaves (primary ts) r) ts := by
  apply Local.of_iff primary_iff
  refine .or (.token (fun _ => rfl) rfl)
    (.or (.seq (.token (fun _ => rfl) rfl) fun m _ => ?_)
    (.or (.seq (.token (fun _ => rfl) rfl) fun m hm => ?_)
    (.seq (.token (fun _ => rfl) rfl) fun m hm => ?_)))
  · exact .or (.without fun _ => rfl) (.seq (.token (fun _ => rfl) rfl) fun _ _ => (.any fun x => .names (by decide) x))
  · exact .seq (ih m hm.length_lt).expression fun _ _ => Local.sign (by decide)
  · exact .seq (.any fun f => (ih m hm.length_lt).values "]" f) fun _ _ =>
      Local.sign (by decide)

private theorem local_operand : Local (fun ts r => Leaves (operand ts) r) ts := by
  apply Local.of_iff operand_iff
  refine .seq (.run (fun _ => rfl) rfl) fun m hm => ?_
  have hsuffix : m <:+ ts := hm ▸ List.dropWhile_suffix _
  have hm' : Local (fun ts r => Leaves (primary ts) r) m := by
    rcases Nat.lt_or_eq_of_le hsuffix.length_le with hlt | heq
    · exact (ih m hlt).primary
    · rw [hsuffix.eq_of_length heq]
      exact local_primary ih
  refine .seq hm' fun k hk => ?_
  have h1 := hsuffix.length_le
  have h2 := hk.length_lt
  exact (ih k (by omega)).accesses

private theorem local_operations : Local (fun ts r => LeavesAny (operations ts) r) ts := by
  apply Local.of_iff operations_iff
  refine .or (.without fun _ => rfl) (.seq (.token (fun _ => rfl) rfl) fun m hm => ?_)
  have h1 := hm.length_lt
  refine .seq (ih m h1).operand fun k hk => ?_
  have h2 := hk.length_lt
  exact (ih k (by omega)).operations

private theorem local_expression : Local (fun ts r => Leaves (expression ts) r) ts := by
  apply Local.of_iff expression_iff
  refine .seq (local_operand ih) fun m hm => ?_
  have h1 := hm.length_lt
  refine .seq (ih m h1).operations fun k hk => ?_
  have h2 := hk.length_le
  refine .or (.without fun _ => rfl) (.seq (.token (fun _ => rfl) rfl) fun a ha => ?_)
  have h3 := ha.length_lt
  refine .seq (ih a (by omega)).expression fun b hb => ?_
  have h4 := hb.length_lt
  refine .seq (Local.sign (by decide)) fun c hc => ?_
  have h5 := hc.length_lt
  exact (ih c (by omega)).expression

/-- Whether a value has a name shows in its first two tokens, of which the first at least belongs to
it. -/
private theorem local_item : Local Item ts := by
  refine .or (.seq (.token (fun _ => rfl) rfl) fun m hm => ?_) ?_
  · have h1 := hm.length_lt
    refine .seq (.token (fun _ => rfl) rfl) fun k hk => ?_
    have h2 := hk.length_lt
    exact (ih k (by omega)).expression
  · rintro r ⟨hn, h⟩
    obtain ⟨u, rfl, hsemi, hlocal⟩ := local_expression ih r h
    refine ⟨u, rfl, hsemi, fun u' r' hu' hr' => ⟨?_, hlocal u' r' hu' hr'⟩⟩
    cases u with
    | nil => exact absurd h.length_lt (by simp)
    | cons t u =>
      obtain ⟨t', u', rfl, ht, hu'⟩ := List.map_eq_cons_iff.mp hu'
      have hkind : t'.kind = t.kind := congrArg Prod.fst ht
      have hstart : startsWith "=" (u' ++ r') = startsWith "=" (u ++ r) :=
        Local.any_eq (fun _ => rfl) (headContent_append hu' hr')
      rw [List.cons_append, isNamed_cons] at hn ⊢
      rw [hkind, hstart]
      exact hn

private theorem local_values (close : String) (f : Option String) :
    Local (fun ts r => GivesValues (values close ts) f r) ts := by
  apply Local.of_iff fun ts r => values_iff
  refine .or (.guard (fun _ => rfl) _ (.when _ .stay)) (.guard (fun _ => rfl) _ ?_)
  refine .seq (.joined (fun x => some x = f) (local_item ih)) fun k ⟨hk, _⟩ => ?_
  have h1 := hk.length_lt
  refine .or (.without fun _ => rfl) (.seq (.token (fun _ => rfl) rfl) fun m hm => .any fun f => ?_)
  have h2 := hm.length_lt
  exact (ih m (by omega)).values close f

end Shorter

theorem expressionsLocal (ts : List Token) : ExpressionsLocal ts := by
  induction hn : ts.length using Nat.strongRecOn generalizing ts with
  | ind n ih =>
    subst hn
    replace ih (m : List Token) (hm : m.length < ts.length) : ExpressionsLocal m := ih _ hm m rfl
    exact { expression := local_expression ih, operations := local_operations ih, operand := local_operand ih,
            accesses := local_accesses ih, primary := local_primary ih, values := local_values ih }

theorem defaultValue_iff (ts r : List Token) : LeavesAny (defaultValue ts) r ↔
    (startsWith "=" ts = false ∧ ts = r) ∨
      ∃ m, Takes (·.isPunct "=") ts m ∧ Leaves (expression m) r := by
  rw [defaultValue]
  constructor
  · rintro ⟨_, he, rfl⟩
    obtain ⟨hs, hq⟩ | ⟨t, m, rfl, ht, h', hq⟩ := eat_cases "=" ts
    · rw [hq] at he
      cases he
      exact .inl ⟨hs, rfl⟩
    · rw [hq] at he
      obtain ⟨b, h1, he⟩ := bind_eq_ok.mp he
      cases he
      exact .inr ⟨m, ⟨t, rfl, ht⟩, b, h1, rfl⟩
  · rintro (⟨hs, rfl⟩ | ⟨m, ⟨t, rfl, ht⟩, b, h1, rfl⟩)
    · rw [eat_of_not_startsWith hs]
      exact ⟨_, rfl, rfl⟩
    · rw [eat_of_isPunct ht]
      exact bind_succeeds h1 ⟨_, rfl, rfl⟩

theorem local_defaultValue (ts : List Token) : Local (fun ts r => LeavesAny (defaultValue ts) r) ts := by
  apply Local.of_iff defaultValue_iff
  exact .or (.without fun _ => rfl)
    (.seq (.token (fun _ => rfl) rfl) fun m _ => (expressionsLocal m).expression)

/-- A name, or nothing where no name stands. -/
def MaybeName (ts r : List Token) : Prop :=
  (ts.head?.any (·.kind == .ident) = false ∧ ts = r) ∨ Takes (·.kind == .ident) ts r

theorem maybeName_iff (ts r : List Token) : MaybeName ts r ↔ (optionalName ts).val = r := by
  rw [optionalName]
  obtain ⟨hs, hq⟩ | ⟨t, m, rfl, ht, h', hq⟩ := eatIf_cases (·.kind == .ident) ts
  · rw [hq]
    constructor
    · rintro (⟨-, h⟩ | ⟨t, rfl, ht⟩)
      · exact h
      · simp [ht] at hs
    · exact fun h => .inl ⟨hs, h⟩
  · rw [hq]
    constructor
    · rintro (⟨h, -⟩ | ⟨_, h, -⟩)
      · simp [ht] at h
      · cases h
        rfl
    · rintro rfl
      exact .inr ⟨t, rfl, ht⟩

theorem params_iff (ts r : List Token) : LeavesAny (params ts) r ↔
    (startsWith ")" ts = true ∧ ts = r) ∨
    (startsWith ")" ts = false ∧ ∃ m, (∃ x, Names (expectKind .ident .parameterType ts) x m) ∧
      ∃ k, MaybeName m k ∧ ∃ l, LeavesAny (defaultValue k) l ∧ ((startsWith "," l = false ∧ l = r) ∨
        ∃ q, Takes (·.isPunct ",") l q ∧ LeavesAny (params q) r)) := by
  cases hs : startsWith ")" ts with
  | true =>
    rw [params, if_pos hs]
    constructor
    · rintro ⟨_, he, rfl⟩
      cases he
      exact .inl ⟨rfl, rfl⟩
    · rintro (⟨-, rfl⟩ | ⟨h, -⟩)
      · exact ⟨_, rfl, rfl⟩
      · cases h
  | false =>
    rw [params, if_neg (by simp [hs])]
    simp only [Bool.false_eq_true, false_and, true_and, false_or]
    constructor
    · rintro ⟨_, he, rfl⟩
      obtain ⟨b, h1, he⟩ := bind_eq_ok.mp he
      obtain ⟨⟨l, hl⟩, h2, he⟩ := bind_eq_ok.mp he
      simp only [Remainder.afterSome] at he
      obtain ⟨hs, hq⟩ | ⟨t, q, rfl, ht, h', hq⟩ := eat_cases "," l
      · rw [hq] at he
        cases he
        exact ⟨_, ⟨_, _, ⟨b, h1, rfl, rfl⟩, rfl⟩, _, (maybeName_iff _ _).mpr rfl, l, ⟨_, h2, rfl⟩,
          .inl ⟨hs, rfl⟩⟩
      · rw [hq] at he
        obtain ⟨c, h3, he⟩ := bind_eq_ok.mp he
        cases he
        exact ⟨_, ⟨_, _, ⟨b, h1, rfl, rfl⟩, rfl⟩, _, (maybeName_iff _ _).mpr rfl, t :: q,
          ⟨_, h2, rfl⟩, .inr ⟨q, ⟨t, rfl, ht⟩, c, h3, rfl⟩⟩
    · rintro ⟨_, ⟨_, _, ⟨b, h1, rfl, rfl⟩, rfl⟩, k, hk, _, ⟨⟨l, hl⟩, h2, rfl⟩, h⟩
      obtain rfl := (maybeName_iff _ _).mp hk
      refine bind_succeeds h1 (bind_succeeds h2 ?_)
      simp only [Remainder.afterSome]
      obtain ⟨hs, rfl⟩ | ⟨q, ⟨t, rfl, ht⟩, c, h3, rfl⟩ := h
      · rw [eat_of_not_startsWith hs]
        exact ⟨_, rfl, rfl⟩
      · rw [eat_of_isPunct ht]
        exact bind_succeeds h3 ⟨_, rfl, rfl⟩

theorem local_params (ts : List Token) : Local (fun ts r => LeavesAny (params ts) r) ts := by
  induction hn : ts.length using Nat.strongRecOn generalizing ts with
  | ind n ih =>
    subst hn
    apply Local.of_iff params_iff
    refine .or (.guard (fun _ => rfl) _ .stay) (.guard (fun _ => rfl) _ ?_)
    refine .seq (.any fun x => .names (by decide) x) fun m ⟨_, _, hm, _⟩ => ?_
    have h1 := hm.length_lt
    refine .seq (.or (.without fun _ => rfl) (.token (fun _ => rfl) rfl)) fun k hk => ?_
    have h2 : k.length ≤ m.length := by
      obtain ⟨-, rfl⟩ | hk := hk
      · exact Nat.le_refl _
      · exact Nat.le_of_lt hk.length_lt
    refine .seq (local_defaultValue k) fun l hl => ?_
    have h3 := hl.length_le
    refine .or (.without fun _ => rfl) (.seq (.token (fun _ => rfl) rfl) fun q hq => ?_)
    have h4 := hq.length_lt
    exact ih q.length (by omega) q rfl

end ModWeave.Script
