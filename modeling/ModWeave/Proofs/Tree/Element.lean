import ModWeave.Proofs.Tree.Reading
import ModWeave.Tree.Markup

/-! The elements of a document, told by the tokens that they pass. -/
namespace ModWeave.Markup

/-- A start tag up to its end, with the name of the element and its `id`. -/
def Head (name : String) (id : Option String) (ts r : List Token) : Prop :=
  ∃ m, Leaves (expect "<" ts) m ∧ ∃ k, Names (expectKind .ident .elementName m) name k ∧
    GivesAny (attributes none k) id r

mutual

/-- An element from `ts` on up to `r`, and whether it counts as a whole. -/
inductive Whole : String → Option String → Bool → List Token → List Token → Prop
  | closed {name : String} {id : Option String} {ts k r : List Token} (head : Head name id ts k)
      (sign : Takes (·.isPunct "/>") k r) : Whole name id true ts r
  | open {name : String} {id : Option String} {hasText bare : Bool} {ts k m l r : List Token}
      (head : Head name id ts k) (sign : Takes (·.isPunct ">") k m)
      (inner : Inner hasText bare m l) (close : Leaves (endTag name l) r) :
      Whole name id (bare || hasText) ts r

/-- What stands between a start tag and its end tag: whether there is text in it, and whether it is
bare of elements. -/
inductive Inner : Bool → Bool → List Token → List Token → Prop
  | close {ts r : List Token} (sign : Takes (·.isPunct "</") ts r) : Inner false true ts r
  | text {hasText bare : Bool} {ts m r : List Token} (first : Takes (·.kind == .text) ts m)
      (more : Inner hasText bare m r) : Inner true bare ts r
  | element {hasText bare whole : Bool} {name : String} {id : Option String} {ts m r : List Token}
      (first : Whole name id whole ts m) (more : Inner hasText bare m r) : Inner hasText false ts r

end

theorem Head.length_lt {name : String} {id : Option String} {ts r : List Token}
    (h : Head name id ts r) : r.length < ts.length := by
  obtain ⟨m, hm, k, ⟨_, hk, -⟩, hr⟩ := h
  have h1 := hm.length_lt
  have h2 := hk.length_lt
  have h3 := hr.length_le
  omega

theorem Head.unique {name name' : String} {id id' : Option String} {ts r r' : List Token}
    (h : Head name id ts r) (h' : Head name' id' ts r') : name = name' ∧ id = id' := by
  obtain ⟨m, hm, k, hk, hr⟩ := h
  obtain ⟨m', hm', k', hk', hr'⟩ := h'
  obtain rfl := hm.unique hm'
  obtain ⟨rfl, rfl⟩ := hk.unique hk'
  exact ⟨rfl, (hr.unique hr').1⟩

section Local

variable {ts r : List Token}

theorem attributes_iff {id id' : Option String} : GivesAny (attributes id ts) id' r ↔
    ((startsWith "/>" ts || startsWith ">" ts) = true ∧ id' = id ∧ ts = r) ∨
      ∃ x m, Names (expectKind .ident .attribute ts) x m ∧ ∃ k, Leaves (expect "=" m) k ∧
        ∃ y l, Names (expectKind .str .attributeValue k) y l ∧
          GivesAny (attributes (if x = "id" then some (unquoted ⟨.str, y, .origin⟩) else id) l) id' r := by
  rw [attributes]
  cases hs : startsWith "/>" ts || startsWith ">" ts with
  | true =>
    rw [if_pos rfl]
    constructor
    · rintro ⟨_, he, rfl, rfl⟩
      cases he
      exact .inl ⟨rfl, rfl, rfl⟩
    · rintro (⟨-, rfl, rfl⟩ | ⟨x, m, ⟨t, ht, -⟩, -⟩)
      · exact ⟨_, rfl, rfl, rfl⟩
      · obtain ⟨rfl, hk⟩ := gives_expectKind.mp ht
        simp [startsWith, Token.isPunct, hk] at hs
  | false =>
    rw [if_neg (by decide)]
    constructor
    · rintro ⟨_, he, rfl, rfl⟩
      obtain ⟨a, h1, he⟩ := bind_eq_ok.mp he
      obtain ⟨b, h2, he⟩ := bind_eq_ok.mp he
      obtain ⟨c, h3, he⟩ := bind_eq_ok.mp he
      obtain ⟨d, h4, he⟩ := bind_eq_ok.mp he
      cases he
      exact .inr ⟨_, _, ⟨_, ⟨a, h1, rfl, rfl⟩, rfl⟩, _, ⟨b, h2, rfl⟩, _, _, ⟨_, ⟨c, h3, rfl, rfl⟩, rfl⟩,
        d, h4, rfl, rfl⟩
    · rintro (⟨h, -⟩ | ⟨_, _, ⟨_, ⟨a, h1, rfl, rfl⟩, rfl⟩, _, ⟨b, h2, rfl⟩, _, _,
        ⟨_, ⟨c, h3, rfl, rfl⟩, rfl⟩, d, h4, rfl, rfl⟩)
      · cases h
      · exact bind_succeeds h1 (bind_succeeds h2 (bind_succeeds h3 (bind_succeeds h4 ⟨_, rfl, rfl, rfl⟩)))

private theorem local_attributes (id id' : Option String) :
    Local (fun ts r => GivesAny (attributes id ts) id' r) ts := by
  induction hn : ts.length using Nat.strongRecOn generalizing id ts with
  | ind n ih =>
    subst hn
    apply Local.of_iff fun ts r => attributes_iff
    have hstop : Local (fun ts r => (startsWith "/>" ts || startsWith ">" ts) = true ∧
        id' = id ∧ ts = r) ts := by
      rintro r ⟨hs, rfl, rfl⟩
      refine ⟨[], rfl, by simp, fun u' r' hu' hr' => ?_⟩
      obtain rfl : u' = [] := by simpa using hu'
      refine ⟨?_, rfl, rfl⟩
      have h1 : startsWith "/>" r' = startsWith "/>" ts := Local.any_eq (fun _ => rfl) hr'
      have h2 : startsWith ">" r' = startsWith ">" ts := Local.any_eq (fun _ => rfl) hr'
      rw [List.nil_append, h1, h2]
      exact hs
    refine .or hstop (.any fun x => .seq (.names (by decide) x) fun m ⟨_, hm, _⟩ => ?_)
    have h1 := hm.length_lt
    refine .seq (Local.sign (by decide)) fun k hk => ?_
    have h2 := hk.length_lt
    refine .any fun y => .seq (.names (by decide) y) fun l ⟨_, hl, _⟩ => ?_
    have h3 := hl.length_lt
    exact ih l.length (by omega) _ rfl

theorem local_head (name : String) (id : Option String) : Local (Head name id) ts := by
  refine .seq (Local.sign (by decide)) fun m _ => ?_
  exact .seq (.names (by decide) name) fun k _ => local_attributes none id

theorem endTag_iff {name : String} : Leaves (endTag name ts) r ↔
    ∃ m, Takes (fun t => t.kind == .ident && t.lexeme == name) ts m ∧ Takes (·.isPunct ">") m r := by
  rw [endTag]
  constructor
  · rintro ⟨_, he, rfl⟩
    obtain ⟨a, h1, he⟩ := bind_eq_ok.mp he
    obtain ⟨hts, hk⟩ := gives_expectKind.mp ⟨a, h1, rfl, rfl⟩
    by_cases hname : a.value.lexeme = name
    · simp only [ne_eq, hname, not_true_eq_false, if_false] at he
      obtain ⟨b, h2, he⟩ := bind_eq_ok.mp he
      cases he
      exact ⟨_, ⟨_, hts, by simp [hk, hname]⟩, leaves_expectSign.mp ⟨b, h2, rfl⟩⟩
    · simp only [ne_eq, hname, not_false_eq_true, if_true] at he
      cases he
  · rintro ⟨m, ⟨t, rfl, ht⟩, hm⟩
    rw [Bool.and_eq_true, beq_iff_eq, beq_iff_eq] at ht
    have hname : Gives (expectKind .ident .endTagName (t :: m)) t m := gives_expectKind.mpr ⟨rfl, ht.1⟩
    obtain ⟨⟨v, rest, hlt⟩, h1, hv, hrest⟩ := hname
    simp only at hv hrest
    subst hv hrest
    obtain ⟨b, h2, rfl⟩ := (leaves_expectSign (e := .delimiter ">")).mpr hm
    refine bind_succeeds h1 ?_
    simp only [ne_eq, ht.2, not_true_eq_false, if_false]
    exact bind_succeeds h2 ⟨_, rfl, rfl⟩

theorem endTag_of_content {name : String} {a b : Token} (ha : a.content = (.ident, name))
    (hb : b.content = (.punct, ">")) : Leaves (endTag name (a :: b :: r)) r := by
  have hk : a.kind = .ident := congrArg Prod.fst ha
  have hl : a.lexeme = name := congrArg Prod.snd ha
  exact endTag_iff.mpr ⟨_, ⟨a, rfl, by simp [hk, hl]⟩, b, rfl, isPunct_of_content hb⟩

private theorem whole_iff {name : String} {id : Option String} {whole : Bool} :
    Whole name id whole ts r ↔
      (∃ k, Head name id ts k ∧ whole = true ∧ Takes (·.isPunct "/>") k r) ∨
      ∃ hasText bare, whole = (bare || hasText) ∧ ∃ k, Head name id ts k ∧
        ∃ m, Takes (·.isPunct ">") k m ∧ ∃ l, Inner hasText bare m l ∧ Leaves (endTag name l) r := by
  constructor
  · rintro (⟨head, sign⟩ | ⟨head, sign, inner, close⟩)
    · exact .inl ⟨_, head, rfl, sign⟩
    · exact .inr ⟨_, _, rfl, _, head, _, sign, _, inner, close⟩
  · rintro (⟨k, head, rfl, sign⟩ | ⟨_, _, rfl, k, head, m, sign, l, inner, close⟩)
    · exact .closed head sign
    · exact .open head sign inner close

private theorem inner_iff {hasText bare : Bool} : Inner hasText bare ts r ↔
    (hasText = false ∧ bare = true ∧ Takes (·.isPunct "</") ts r) ∨
    (hasText = true ∧ ∃ t m, Takes (·.kind == .text) ts m ∧ Inner t bare m r) ∨
    (bare = false ∧ ∃ b whole name id m, Whole name id whole ts m ∧ Inner hasText b m r) := by
  constructor
  · rintro (⟨sign⟩ | ⟨first, more⟩ | ⟨first, more⟩)
    · exact .inl ⟨rfl, rfl, sign⟩
    · exact .inr (.inl ⟨rfl, _, _, first, more⟩)
    · exact .inr (.inr ⟨rfl, _, _, _, _, _, first, more⟩)
  · rintro (⟨rfl, rfl, sign⟩ | ⟨rfl, t, m, first, more⟩ | ⟨rfl, b, whole, name, id, m, first, more⟩)
    · exact .close sign
    · exact .text first more
    · exact .element first more

private theorem enclosed_endTag (name : String) :
    Enclosed (fun ts r => Leaves (endTag name ts) r) ts := by
  apply Enclosed.of_iff fun ts r => endTag_iff
  exact .seq (.token fun _ => rfl) fun _ _ => .token fun _ => rfl

/-- Elements, and what stands in them, are read alike whatever stands behind them. -/
private structure ElementsEnclosed (ts : List Token) : Prop where
  whole (name : String) (id : Option String) (whole : Bool) : Enclosed (Whole name id whole) ts
  inner (hasText bare : Bool) : Enclosed (Inner hasText bare) ts

private theorem elementsEnclosed (ts : List Token) : ElementsEnclosed ts := by
  induction hn : ts.length using Nat.strongRecOn generalizing ts with
  | ind n ih =>
    subst hn
    replace ih (m : List Token) (hm : m.length < ts.length) : ElementsEnclosed m := ih _ hm m rfl
    have hwhole (name : String) (id : Option String) (whole : Bool) :
        Enclosed (Whole name id whole) ts := by
      apply Enclosed.of_iff fun ts r => whole_iff
      refine .or (.after (local_head name id) fun _ _ => .when _ (.token fun _ => rfl)) ?_
      refine .any fun hasText => .any fun bare => .when _ (.after (local_head name id) fun k hk => ?_)
      have h1 := hk.length_lt
      refine .seq (.token fun _ => rfl) fun m hm => ?_
      have h2 := hm.length_lt
      exact .seq ((ih m (by omega)).inner hasText bare) fun _ _ => enclosed_endTag name
    refine ⟨hwhole, fun hasText bare => ?_⟩
    apply Enclosed.of_iff fun ts r => inner_iff
    refine .or (.when _ (.when _ (.token fun _ => rfl))) (.or (.when _ ?_) (.when _ ?_))
    · exact .any fun t => .seq (.token fun _ => rfl) fun m hm => (ih m hm.length_lt).inner t bare
    · refine .any fun b => .any fun whole => .any fun name => .any fun id => ?_
      have hfirst := hwhole name id whole
      exact .seq hfirst fun m hm => (ih m (hfirst.length_lt hm)).inner hasText b

theorem enclosed_whole (name : String) (id : Option String) (whole : Bool) :
    Enclosed (Whole name id whole) ts := (elementsEnclosed ts).whole name id whole

/-- An element ends with the sign that ends its start tag or its end tag. -/
theorem Whole.last {name : String} {id : Option String} {whole : Bool} {u : List Token}
    (h : Whole name id whole (u ++ r) r) :
    ∃ v t, u = v ++ [t] ∧ (t.content = (.punct, "/>") ∨ t.content = (.punct, ">")) := by
  cases h with
  | closed head sign =>
    obtain ⟨v, hv, -⟩ := local_head name id _ head
    obtain ⟨t, rfl, ht⟩ := sign
    rw [List.append_cons] at hv
    exact ⟨v, t, List.append_cancel_right hv, .inl (content_of_isPunct ht)⟩
  | «open» head sign inner close =>
    obtain ⟨v, hv, -⟩ := local_head name id _ head
    obtain ⟨t, rfl, -⟩ := sign
    obtain ⟨w, -, rfl, -⟩ := (elementsEnclosed _).inner _ _ _ inner
    obtain ⟨_, ⟨a, rfl, -⟩, b, rfl, hb⟩ := endTag_iff.mp close
    refine ⟨v ++ t :: (w ++ [a]), b, ?_, .inr (content_of_isPunct hb)⟩
    rw [← List.append_left_inj r, hv]
    simp

end Local

section Readers

variable {n i : Nat} {ts q : List Token} {c : Construct}

/-- An element as a leaf. -/
def wholeAt (n i : Nat) (name : String) (id : Option String) (ts r : List Token) : Construct :=
  .leaf .element (elementTag name id i) ⟨n - ts.length, n - r.length⟩
    ((ts.head?.map (·.place.line)).getD 1) none

/-- An element ends with its start tag, or what stands in it is read up to its end tag. -/
theorem gives_element : Gives (element n i ts) c q ↔ ∃ name id k, Head name id ts k ∧
    ((Takes (·.isPunct "/>") k q ∧ c = wholeAt n i name id ts q) ∨
      ∃ m inner l, Takes (·.isPunct ">") k m ∧ Gives (contents n name 0 m) inner l ∧
        Leaves (endTag name l) q ∧
        c = if inner.elements.isEmpty || inner.hasText then wholeAt n i name id ts q
          else .block .element (elementTag name id i) ⟨n - ts.length, n - q.length⟩
            ((ts.head?.map (·.place.line)).getD 1) ⟨n - k.length, inner.closing⟩ inner.elements) := by
  rw [element]
  constructor
  · rintro ⟨_, he, rfl, rfl⟩
    obtain ⟨a, h1, he⟩ := bind_eq_ok.mp he
    obtain ⟨b, h2, he⟩ := bind_eq_ok.mp he
    obtain ⟨⟨id, k, hk⟩, h3, he⟩ := bind_eq_ok.mp he
    have hhead : Head b.value.lexeme id ts k :=
      ⟨_, ⟨a, h1, rfl⟩, _, ⟨_, ⟨b, h2, rfl, rfl⟩, rfl⟩, _, h3, rfl, rfl⟩
    refine ⟨_, id, k, hhead, ?_⟩
    simp only [Remainder.afterSome] at he
    obtain ⟨hs, hq⟩ | ⟨t, m, rfl, ht, h', hq⟩ := eat_cases "/>" k
    · rw [hq] at he
      obtain ⟨d, h4, he⟩ := bind_eq_ok.mp he
      obtain ⟨e, h5, he⟩ := bind_eq_ok.mp he
      obtain ⟨f, h6, he⟩ := bind_eq_ok.mp he
      cases he
      exact .inr ⟨_, _, _, leaves_expectSign.mp ⟨d, h4, rfl⟩, ⟨e, h5, rfl, rfl⟩, ⟨f, h6, rfl⟩, rfl⟩
    · rw [hq] at he
      cases he
      exact .inl ⟨⟨t, rfl, ht⟩, rfl⟩
  · rintro ⟨name, id, k, ⟨_, ⟨a, h1, rfl⟩, _, ⟨_, ⟨b, h2, rfl, rfl⟩, rfl⟩, ⟨_, k', hk'⟩, h3, rfl, rfl⟩, h⟩
    refine bind_succeeds h1 (bind_succeeds h2 (bind_succeeds h3 ?_))
    simp only [Remainder.afterSome]
    obtain ⟨⟨t, rfl, ht⟩, rfl⟩ | ⟨m, inner, l, hm, ⟨e, h5, rfl, rfl⟩, ⟨f, h6, rfl⟩, rfl⟩ := h
    · simp only [eat_of_isPunct ht]
      exact ⟨_, rfl, rfl, rfl⟩
    · have hs : startsWith "/>" k' = false := by
        obtain ⟨t, rfl, ht⟩ := hm
        simp only [Token.isPunct, Bool.and_eq_true, beq_iff_eq] at ht
        simp [startsWith, Token.isPunct, ht.2]
      obtain ⟨d, h4, rfl⟩ := (leaves_expectSign (e := .delimiter ">")).mpr hm
      simp only [eat_of_not_startsWith hs]
      exact bind_succeeds h4 (bind_succeeds h5 (bind_succeeds h6 ⟨_, rfl, rfl, rfl⟩))

theorem startsWith_of_element (h : Gives (element n i ts) c q) : startsWith "<" ts = true := by
  obtain ⟨_, _, _, ⟨_, hm, -⟩, -⟩ := gives_element.mp h
  obtain ⟨t, rfl, ht⟩ := leaves_expectSign.mp hm
  simp [startsWith, ht]

/-- What stands in an element is text and elements up to an end tag. -/
theorem gives_contents {name : String} {inner : Contents} : Gives (contents n name i ts) inner q ↔
    (Takes (·.isPunct "</") ts q ∧ inner = ⟨n - ts.length, false, []⟩) ∨
    (∃ m more, Takes (·.kind == .text) ts m ∧ Gives (contents n name i m) more q ∧
      inner = { more with hasText := true }) ∨
    ∃ c m more, Gives (element n i ts) c m ∧ Gives (contents n name (i + 1) m) more q ∧
      inner = { more with elements := c :: more.elements } := by
  rw [contents]
  obtain ⟨hs, hq⟩ | ⟨t, m, rfl, ht, h', hq⟩ := eat_cases "</" ts
  · rw [hq]
    obtain ⟨hs', hq⟩ | ⟨t, m, rfl, ht, h', hq⟩ := eatIf_cases (·.kind == .text) ts
    · simp only [hq]
      constructor
      · rintro ⟨_, he, rfl, rfl⟩
        split at he
        · cases he
        · split at he
          · cases he
          · obtain ⟨a, h1, he⟩ := bind_eq_ok.mp he
            obtain ⟨b, h2, he⟩ := bind_eq_ok.mp he
            cases he
            exact .inr (.inr ⟨_, _, _, ⟨a, h1, rfl, rfl⟩, ⟨b, h2, rfl, rfl⟩, rfl⟩)
      · rintro (⟨⟨t, rfl, ht⟩, -⟩ | ⟨m, more, ⟨t, rfl, ht⟩, -⟩ |
          ⟨_, _, _, ⟨a, h1, rfl, rfl⟩, ⟨b, h2, rfl, rfl⟩, rfl⟩)
        · simp [startsWith, ht] at hs
        · simp [ht] at hs'
        · have hfirst : startsWith "<" ts = true := startsWith_of_element ⟨a, h1, rfl, rfl⟩
          have hne : ts.isEmpty = false := by cases ts <;> first | cases hfirst | rfl
          simp only [hfirst, hne]
          exact bind_succeeds h1 (bind_succeeds h2 ⟨_, rfl, rfl, rfl⟩)
    · simp only [hq]
      constructor
      · rintro ⟨_, he, rfl, rfl⟩
        obtain ⟨a, h1, he⟩ := bind_eq_ok.mp he
        cases he
        exact .inr (.inl ⟨_, _, ⟨t, rfl, ht⟩, ⟨a, h1, rfl, rfl⟩, rfl⟩)
      · rintro (⟨⟨_, h, ht'⟩, -⟩ | ⟨_, _, ⟨_, h, -⟩, ⟨a, h1, rfl, rfl⟩, rfl⟩ | ⟨_, _, _, h, -⟩)
        · cases h
          simp [startsWith, ht'] at hs
        · cases h
          exact bind_succeeds h1 ⟨_, rfl, rfl, rfl⟩
        · have hfirst := startsWith_of_element h
          rw [beq_iff_eq] at ht
          simp [startsWith, Token.isPunct, ht] at hfirst
  · rw [hq]
    constructor
    · rintro ⟨_, he, rfl, rfl⟩
      cases he
      exact .inl ⟨⟨t, rfl, ht⟩, rfl⟩
    · simp only [Token.isPunct, Bool.and_eq_true, beq_iff_eq] at ht
      rintro (⟨⟨_, h, -⟩, rfl⟩ | ⟨m', more, ⟨_, h, ht'⟩, -⟩ | ⟨_, _, _, h, -⟩)
      · cases h
        exact ⟨_, rfl, rfl, rfl⟩
      · cases h
        simp [ht.1] at ht'
      · have hfirst := startsWith_of_element h
        simp [startsWith, Token.isPunct, ht.2] at hfirst

/-- Elements follow one another up to the end. -/
theorem elements_iff {cs : List Construct} : elements n i ts = .ok cs ↔
    (ts = [] ∧ cs = []) ∨ ∃ c m more, Gives (element n i ts) c m ∧ elements n (i + 1) m = .ok more ∧
      cs = c :: more := by
  rw [elements]
  cases ts with
  | nil =>
    constructor
    · intro h
      cases h
      exact .inl ⟨rfl, rfl⟩
    · rintro (⟨-, rfl⟩ | ⟨c, m, more, h, -⟩)
      · rfl
      · exact absurd h.length_lt (Nat.not_lt_zero _)
  | cons t r =>
    cases hs : startsWith "<" (t :: r) with
    | false =>
      constructor
      · intro h
        cases h
      · rintro (⟨h, -⟩ | ⟨_, _, _, h, -⟩)
        · cases h
        · rw [startsWith_of_element h] at hs
          cases hs
    | true =>
      constructor
      · intro h
        obtain ⟨a, h1, h⟩ := bind_eq_ok.mp h
        obtain ⟨more, h2, h⟩ := bind_eq_ok.mp h
        cases h
        exact .inr ⟨_, _, more, ⟨a, h1, rfl, rfl⟩, h2, rfl⟩
      · rintro (⟨h, -⟩ | ⟨_, _, more, ⟨a, h1, rfl, rfl⟩, h2, rfl⟩)
        · cases h
        · exact bind_eq_ok.mpr ⟨a, h1, bind_eq_ok.mpr ⟨more, h2, rfl⟩⟩

mutual

theorem whole_of_element {n i : Nat} {ts q : List Token} {c : Construct}
    (h : Gives (element n i ts) c q) : ∃ name id whole, Whole name id whole ts q := by
  obtain ⟨name, id, k, hhead, ⟨hsign, -⟩ | ⟨m, inner, l, hsign, hinner, hend, -⟩⟩ := gives_element.mp h
  · exact ⟨name, id, true, .closed hhead hsign⟩
  · have hlt : m.length < ts.length := Nat.lt_trans hsign.length_lt hhead.length_lt
    exact ⟨name, id, _, .open hhead hsign (inner_of_contents hinner) hend⟩
termination_by 2 * ts.length

theorem inner_of_contents {n i : Nat} {name : String} {ts q : List Token} {inner : Contents}
    (h : Gives (contents n name i ts) inner q) :
    Inner inner.hasText inner.elements.isEmpty ts q := by
  obtain ⟨hsign, rfl⟩ | ⟨m, more, hfirst, hmore, rfl⟩ | ⟨c, m, more, hfirst, hmore, rfl⟩ :=
    gives_contents.mp h
  · exact .close hsign
  · have hlt := hfirst.length_lt
    have hinner := inner_of_contents hmore
    exact .text hfirst hinner
  · have hlt := hfirst.length_lt
    obtain ⟨name, id, whole, hwhole⟩ := whole_of_element hfirst
    have hinner := inner_of_contents hmore
    exact .element hwhole hinner
termination_by 2 * ts.length + 1

end

mutual

theorem exists_element {name : String} {id : Option String} {whole : Bool} {ts q : List Token}
    (h : Whole name id whole ts q) (n i : Nat) :
    ∃ c, Gives (element n i ts) c q ∧ (whole = true → c = wholeAt n i name id ts q) := by
  cases h with
  | closed head sign =>
    exact ⟨_, gives_element.mpr ⟨_, _, _, head, .inl ⟨sign, rfl⟩⟩, fun _ => rfl⟩
  | «open» head sign inner close =>
    have hlt := Nat.lt_trans sign.length_lt head.length_lt
    obtain ⟨c, hc, rfl, rfl⟩ := exists_contents inner n name 0
    refine ⟨_, gives_element.mpr ⟨_, _, _, head, .inr ⟨_, _, _, sign, hc, close, rfl⟩⟩, fun hw => ?_⟩
    rw [if_pos hw]
termination_by 2 * ts.length

theorem exists_contents {hasText bare : Bool} {ts q : List Token} (h : Inner hasText bare ts q)
    (n : Nat) (name : String) (i : Nat) : ∃ inner, Gives (contents n name i ts) inner q ∧
      inner.hasText = hasText ∧ inner.elements.isEmpty = bare := by
  cases h with
  | close sign => exact ⟨_, gives_contents.mpr (.inl ⟨sign, rfl⟩), rfl, rfl⟩
  | text first more =>
    have hlt := first.length_lt
    obtain ⟨inner, hinner, -, rfl⟩ := exists_contents more n name i
    exact ⟨_, gives_contents.mpr (.inr (.inl ⟨_, _, first, hinner, rfl⟩)), rfl, rfl⟩
  | element first more =>
    have hlt := (enclosed_whole _ _ _).length_lt first
    obtain ⟨c, hc, -⟩ := exists_element first n i
    obtain ⟨inner, hinner, rfl, -⟩ := exists_contents more n name (i + 1)
    exact ⟨_, gives_contents.mpr (.inr (.inr ⟨_, _, _, hc, hinner, rfl⟩)), rfl, rfl⟩
termination_by 2 * ts.length + 1

end

end Readers

end ModWeave.Markup
