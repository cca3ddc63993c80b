import ModWeave.Proofs.Token.Markup
import ModWeave.Proofs.Token.Script
import ModWeave.Proofs.Tree.Attachment
import ModWeave.Proofs.Tree.Depiction
import ModWeave.Proofs.Tree.Markup
import ModWeave.Proofs.Tree.Script

/-! What scripts and documents have in common: texts that are made of sound forms. -/
namespace ModWeave

namespace Language

/-- Forms that texts of a language are made of. -/
def Sound : Language → Form → Prop
  | .script => Script.Sound
  | .markup => Markup.Sound

/-- The top-level constructs of a source. -/
def constructs : Language → Source → Except ParseError (List Construct)
  | .script, s => Script.statements s.tokens.length s.tokens
  | .markup, s => Markup.elements s.tokens.length 0 s.tokens

/-- A text is read when its tokens and then its constructs are. -/
theorem parse_iff {l : Language} {text : List Char} {t : Tree} : l.parse text = .ok t ↔
    ∃ s cs, l.source text = .ok s ∧ l.constructs s = .ok cs ∧ t = .ofConstructs s cs := by
  cases l with
  | script | markup =>
    constructor
    · intro h
      obtain ⟨s, hs, h⟩ := bind_eq_ok.mp h
      obtain ⟨cs, hcs, h⟩ := bind_eq_ok.mp h
      cases h
      exact ⟨s, cs, hs, hcs, rfl⟩
    · rintro ⟨s, cs, hs, hcs, rfl⟩
      exact bind_eq_ok.mpr ⟨s, hs, bind_eq_ok.mpr ⟨cs, hcs, rfl⟩⟩

theorem keyed_of_parse {l : Language} {text : List Char} {t : Tree} (h : l.parse text = .ok t) :
    t.root.Keyed := by
  obtain ⟨s, cs, -, -, rfl⟩ := parse_iff.mp h
  exact Tree.keyed_ofConstructs s cs

/-- A root has no header. -/
theorem sameHeader_of_parse {l : Language} {text text' : List Char} {t u : Tree}
    (h : l.parse text = .ok t) (k : l.parse text' = .ok u) :
    sameHeader t.source u.source t.root u.root = true := by
  obtain ⟨s, cs, -, -, rfl⟩ := parse_iff.mp h
  obtain ⟨s', cs', -, -, rfl⟩ := parse_iff.mp k
  simp [sameHeader, sameTokens, Tree.ofConstructs, Node.header, Node.braces?, Node.tokens, Node.head,
    Source.slice]

theorem isContainer_of_parse {l : Language} {text : List Char} {t : Tree}
    (h : l.parse text = .ok t) : t.root.isContainer = true := by
  obtain ⟨s, cs, -, -, rfl⟩ := parse_iff.mp h
  rfl

variable {l : Language} {f : Form}

/-- The last lexeme of a form never runs into what stands behind it. -/
theorem Sound.closes (h : l.Sound f) :
    ∃ y, f.lexemes.getLast? = some y ∧ l.closes y = true := by
  cases l with
  | script => exact Script.Sound.closes h
  | markup => exact Markup.Sound.closes h

/-- A leaf has one label. -/
theorem Sound.leaf_label {a b : Label} {x : Lexeme} {ls : List Lexeme} (h : l.Sound (.leaf a x ls))
    (h' : l.Sound (.leaf b x ls)) : a = b := by
  cases l with
  | script => exact Script.Sound.leaf_label h h'
  | markup => exact Markup.Sound.leaf_label h h'

section Block

variable {label label' : Label} {header : List Lexeme} {opening opening' closing closing' : Lexeme}
  {body body' clauses clauses' : List Form} {trail trail' : List Lexeme}

/-- A header has one label. -/
theorem Sound.block_label (h : l.Sound (.block label header opening body closing clauses trail))
    (h' : l.Sound (.block label' header opening' body' closing' clauses' trail')) :
    label = label' := by
  cases l with
  | script => exact Script.Sound.block_label h h'
  | markup => exact Markup.Sound.block_label h h'

theorem Sound.label? (h : l.Sound (.block label header opening body closing clauses trail)) :
    (Form.block label header opening body closing clauses trail).label? = some label := by
  cases l with
  | script | markup =>
    cases h
    rfl

theorem Sound.of_body (h : l.Sound (.block label header opening body closing clauses trail)) :
    ∀ f ∈ body, l.Sound f ∧ f.isClause = false := by
  cases l with
  | script =>
    cases h with
    | block kind tag header body clauses reads statements plain =>
      exact fun f hf => ⟨statements f hf, plain f hf⟩
  | markup =>
    cases h with
    | block name id header body reads elements =>
      exact fun f hf => ⟨elements f hf, (elements f hf).plain⟩

theorem Sound.of_clauses (h : l.Sound (.block label header opening body closing clauses trail)) :
    ∀ f ∈ clauses, l.Sound f ∧ f.isClause = true := by
  cases l with
  | script =>
    cases h with
    | block kind tag header body clauses reads statements plain chain hung =>
      exact fun f hf => ⟨chain f hf, hung f hf⟩
  | markup =>
    cases h
    simp

/-- Only an `if` has clauses. -/
theorem Sound.conditional (h : l.Sound (.block label header opening body closing clauses trail))
    (hne : clauses ≠ []) : label.kind = .conditional := by
  cases l with
  | script =>
    cases h with
    | block kind tag header body clauses reads statements plain chain hung conditional =>
      exact conditional hne
  | markup =>
    cases h
    exact absurd rfl hne

/-- Only an element with elements in it is a block. -/
theorem Sound.filled (h : l.Sound (.block label header opening body closing clauses trail))
    (hl : l = .markup) : solids body ≠ [] := by
  subst hl
  cases h with
  | block name id header body reads elements filled =>
    obtain ⟨f, hf⟩ := List.exists_mem_of_ne_nil body filled
    have hsolid : f.isSolid = true := by
      cases elements f hf with
      | leaf | block => rfl
    exact List.ne_nil_of_mem (List.mem_filter.mpr ⟨hf, hsolid⟩)

theorem Sound.closes_opening
    (h : l.Sound (.block label header opening body closing clauses trail)) :
    l.closes opening = true := by
  cases l with
  | script | markup =>
    cases h
    rfl

/-- In a script clauses follow the closing brace, and in a document there are none. -/
theorem Sound.tail (h : l.Sound (.block label header opening body closing clauses trail)) :
    (l = .script ∧ trail = [] ∧ l.closes closing = true) ∨ (l = .markup ∧ clauses = []) := by
  cases l with
  | script =>
    cases h
    exact .inl ⟨rfl, rfl, rfl⟩
  | markup =>
    cases h
    exact .inr ⟨rfl, rfl⟩

/-- A block stays sound with other forms inside. -/
theorem Sound.refill (h : l.Sound (.block label header opening body closing clauses trail))
    {fs gs : List Form} (hfs : ∀ f ∈ fs, l.Sound f ∧ f.isClause = false)
    (hgs : ∀ f ∈ gs, l.Sound f ∧ f.isClause = true) (hfilled : l = .markup → fs ≠ [])
    (hconditional : gs ≠ [] → label.kind = .conditional) :
    l.Sound (.block label header opening fs closing gs trail) := by
  cases l with
  | script =>
    cases h with
    | block kind tag header body clauses reads =>
      exact .block kind tag header fs gs reads (fun f hf => (hfs f hf).1) (fun f hf => (hfs f hf).2)
        (fun f hf => (hgs f hf).1) (fun f hf => (hgs f hf).2) hconditional
  | markup =>
    cases h with
    | block name id header body reads =>
      obtain rfl : gs = [] := Classical.byContradiction fun hne => by cases hconditional hne
      exact .block name id header fs reads (fun f hf => (hfs f hf).1) (hfilled rfl)

end Block

/-- The text of a source is the text that it was made from. -/
theorem text_of_source {text : List Char} {s : Source} (h : l.source text = .ok s) : s.text = text := by
  cases l with
  | script => exact (Script.tokensFrom_of_source h).1
  | markup => exact (Markup.tokensFrom_of_source h).1

theorem text_of_parse {text : List Char} {t : Tree} (h : l.parse text = .ok t) : t.text = text := by
  obtain ⟨s, cs, hs, -, rfl⟩ := parse_iff.mp h
  exact text_of_source hs

/-- A source whose lexemes are those of sound forms has their constructs. -/
theorem constructs_of_forms {s : Source} {fs : List Form} (h : s.lexemes = lexemesAll fs)
    (hsound : ∀ f ∈ fs, l.Sound f ∧ f.isClause = false) (hordered : orderedAll fs = true) :
    l.constructs s = .ok (constructsAll s 0 0 fs) := by
  have hts : s.Tail 0 s.tokens := ⟨rfl, Nat.zero_le _⟩
  cases l with
  | script =>
    exact Script.statements_readBack (fun f hf => (hsound f hf).1) (fun f hf => (hsound f hf).2)
      hordered hts h 0
  | markup => exact Markup.elements_readBack (fun f hf => (hsound f hf).1) hts h 0

/-- Sound forms are read only if no clause follows an `else`. -/
theorem ordered_of_constructs {s : Source} {fs : List Form} {cs : List Construct}
    (h : s.lexemes = lexemesAll fs) (hsound : ∀ f ∈ fs, l.Sound f ∧ f.isClause = false)
    (hcs : l.constructs s = .ok cs) : orderedAll fs = true := by
  have hts : s.Tail 0 s.tokens := ⟨rfl, Nat.zero_le _⟩
  cases l with
  | script =>
    exact Script.ordered_of_statements (fun f hf => (hsound f hf).1) (fun f hf => (hsound f hf).2)
      hts h hcs
  | markup => exact orderedAll_iff.mpr fun f hf => Markup.Sound.ordered (hsound f hf).1

theorem forms_of_constructs {s : Source} {cs : List Construct} (h : l.constructs s = .ok cs)
    (hterminated : l = .script → Script.allTerminated s cs = true) :
    ∃ fs, (∀ f ∈ fs, l.Sound f ∧ f.isClause = false) ∧ s.lexemes = lexemesAll fs ∧
      cs = constructsAll s 0 0 fs := by
  have hts : s.Tail 0 s.tokens := ⟨rfl, Nat.zero_le _⟩
  cases l with
  | script =>
    obtain ⟨fs, hsound, hplain, -, hlexemes, hcs⟩ := Script.statements_sound hts h (hterminated rfl)
    exact ⟨fs, fun f hf => ⟨hsound f hf, hplain f hf⟩, hlexemes, hcs 0⟩
  | markup =>
    obtain ⟨fs, hsound, hlexemes, hcs⟩ := Markup.elements_sound hts h
    exact ⟨fs, fun f hf => ⟨hsound f hf, (hsound f hf).plain⟩, hlexemes, hcs⟩

end Language

section Markup

/-- Constructs that are told apart take no one's place. -/
theorem labelsRedefine_of_repeating {ls : List Label} (h : ∀ l ∈ ls, l.kind.repetition ≠ .replaces) {b : Block}
    (hb : b.children.Indexed) (j : Nat) : labelsRedefine b j ls = false := by
  induction ls generalizing b j with
  | nil => rfl
  | cons l ls ih =>
    rw [List.forall_mem_cons] at h
    have hnew : b.replaces (l.node j) = false := by
      rw [← Bool.not_eq_true, Block.replaces_iff hb, Block.not_replaces hb (n := l.node j) h.1]
      exact Bool.false_ne_true
    rw [labelsRedefine, hnew, ih h.2 (Block.indexed_attach hb hnew).1, Bool.or_self]

theorem Markup.Sound.kind {f : Form} {label : Label} (h : Sound f) (hf : f.label? = some label) :
    label.kind = .element := by
  cases h with
  | leaf | block =>
    cases hf
    rfl

/-- Elements are told apart by ordinals. -/
private theorem labelsRedefine_elements {fs : List Form} (h : ∀ f ∈ fs, Markup.Sound f) :
    labelsRedefine .empty 0 (labelsOf fs) = false := by
  refine labelsRedefine_of_repeating (fun l hl => ?_) ChildMap.indexed_empty 0
  obtain ⟨f, hf, hlabel⟩ := List.mem_filterMap.mp hl
  rw [(h f hf).kind hlabel]
  decide

private theorem redefines_element {f : Form} (h : Markup.Sound f) : f.redefines = false := by
  induction h with
  | leaf => rfl
  | block name id header body reads elements filled ih =>
    have hany : anyRedefines body = false := anyRedefines_iff.mpr ih
    have hlabels : labelsRedefine .empty 0 (labelsOf body) = false :=
      labelsRedefine_elements elements
    simp [Form.redefines, hany, anyRedefines, hlabels]

end Markup

/-- The text of the tree is made of these forms, and none of them takes another's place. -/
structure Language.Written (l : Language) (t : Tree) (fs : List Form) : Prop where
  source : l.source t.text = .ok t.source
  tree : t = .ofConstructs t.source (constructsAll t.source 0 0 fs)
  lexemes : t.source.lexemes = lexemesAll fs
  sound : ∀ f ∈ fs, l.Sound f ∧ f.isClause = false
  ordered : orderedAll fs = true
  fresh : (anyRedefines fs || labelsRedefine .empty 0 (labelsOf fs)) = false

namespace Language

variable {l : Language} {t : Tree} {text : List Char}

/-- A document, and a script in which leaves end with `;` and nothing takes another's place, is made of
forms. -/
theorem written_of_parse (h : l.parse text = .ok t)
    (hscript : l = .script → ∀ cs, l.constructs t.source = .ok cs →
      Script.allTerminated t.source cs = true ∧ redefinesAmong .empty cs = false) :
    ∃ fs, l.Written t fs := by
  obtain ⟨s, cs, hs, hcs, rfl⟩ := parse_iff.mp h
  obtain ⟨fs, hsound, hlexemes, rfl⟩ := forms_of_constructs hcs fun hl => (hscript hl cs hcs).1
  refine ⟨fs, ?_, rfl, hlexemes, hsound, ordered_of_constructs hlexemes hsound hcs, ?_⟩
  · show l.source s.text = .ok s
    rw [text_of_source hs, hs]
  · cases l with
    | script =>
      have hfresh := (hscript rfl _ hcs).2
      rwa [redefinesAmong_constructsAll, Block.bare_empty] at hfresh
    | markup =>
      have hall : ∀ f ∈ fs, Markup.Sound f := fun f hf => (hsound f hf).1
      rw [anyRedefines_iff.mpr fun f hf => redefines_element (hall f hf),
        labelsRedefine_elements hall, Bool.or_self]

/-- A text that reads as sound forms in order is parsed to a tree of these. -/
theorem parse_of_lexemes {fs : List Form} (h : l.lexemes? text = some (lexemesAll fs))
    (hsound : ∀ f ∈ fs, l.Sound f ∧ f.isClause = false) :
    (∃ t, l.parse text = .ok t) ↔ orderedAll fs = true := by
  obtain ⟨s, hs, hlexemes⟩ : ∃ s, l.source text = .ok s ∧ s.lexemes = lexemesAll fs := by
    rw [lexemes?, Option.map_eq_some_iff] at h
    obtain ⟨s, hs, hlexemes⟩ := h
    cases hsource : l.source text with
    | error e => simp [hsource, Except.toOption] at hs
    | ok s' =>
      rw [hsource] at hs
      cases hs
      exact ⟨_, rfl, hlexemes⟩
  constructor
  · rintro ⟨t, ht⟩
    obtain ⟨s', cs, hs', hcs, -⟩ := parse_iff.mp ht
    rw [hs] at hs'
    cases hs'
    exact ordered_of_constructs hlexemes hsound hcs
  · intro hordered
    exact ⟨_, parse_iff.mpr ⟨s, _, hs, constructs_of_forms hlexemes hsound hordered, rfl⟩⟩

end Language

end ModWeave
