import ModWeave.Proofs.Token.Script
import ModWeave.Proofs.Tree.Run

/-! Tags of a script: the kind comes first, up to a colon or to the end. Names have no colon in them, so
that a mark behind a tag never makes it the tag of another construct. -/
namespace ModWeave

/-- Nothing, or something that a colon parts from what stands before it. -/
def Marked (x : List Char) : Prop := x.head?.all (· == ':') = true

namespace Marked

variable {front front' x x' : List Char}

theorem cons (x : List Char) : Marked (':' :: x) := rfl

theorem takeWhile (h : Marked x) (hfront : ':' ∉ front) :
    (front ++ x).takeWhile (· != ':') = front := by
  rw [List.takeWhile_append_of_pos (by grind)]
  cases x with
  | nil => simp
  | cons c x =>
    have hc : c = ':' := by simpa [Marked] using h
    simp [hc]

theorem append (h : Marked x) (h' : Marked x') : Marked (x ++ x') := by
  cases x with
  | nil => exact h'
  | cons c x => exact h

/-- The colon tells where the front ends. -/
theorem front_unique (h : Marked x) (h' : Marked x') (hfront : ':' ∉ front) (hfront' : ':' ∉ front')
    (heq : front ++ x = front' ++ x') : front = front' := by
  rw [← h.takeWhile hfront, heq, h'.takeWhile hfront']

end Marked

namespace NodeKind

theorem colon_not_mem_name (kind : NodeKind) : ':' ∉ kind.name.toList := by
  cases kind <;> decide

theorem name_injective {kind kind' : NodeKind} (h : kind.name = kind'.name) : kind = kind' := by
  cases kind <;> cases kind' <;> first | rfl | exact absurd h (by decide)

/-- What a construct of a kind is tagged with in a script: the kind, and behind a colon what tells it from
others of its kind. A call is tagged with the name it calls, a branch with nothing. -/
structure Tags (kind : NodeKind) (tag : String) : Prop where
  kindFirst : ∃ x, Marked x ∧ tag.toList = kind.name.toList ++ x
  call : kind = .funCall → ∃ f : String, ':' ∉ f.toList ∧ tag = "funCall:" ++ f
  branch : kind = .conditional ∨ kind = .elseIf → tag = kind.name
  ofScript : kind ≠ .element

namespace Tags

variable {kind kind' : NodeKind} {tag tag' : String} {x x' : List Char}

theorem kind_unique (h : kind.Tags tag) (h' : kind'.Tags tag') (hx : Marked x) (hx' : Marked x')
    (heq : tag.toList ++ x = tag'.toList ++ x') : kind = kind' := by
  obtain ⟨y, hy, htag⟩ := h.kindFirst
  obtain ⟨y', hy', htag'⟩ := h'.kindFirst
  rw [htag, htag', List.append_assoc, List.append_assoc] at heq
  exact name_injective (String.toList_inj.mp ((hy.append hx).front_unique (hy'.append hx')
    kind.colon_not_mem_name kind'.colon_not_mem_name heq))

/-- Where a tag may repeat, marks behind tags make none into another. -/
theorem unique (h : kind.Tags tag) (h' : kind'.Tags tag') (hrepeats : kind.repetition ≠ .replaces)
    (hx : Marked x) (hx' : Marked x') (heq : tag.toList ++ x = tag'.toList ++ x') : tag = tag' := by
  obtain rfl := h.kind_unique h' hx hx' heq
  cases kind with
  | funCall =>
    obtain ⟨f, hf, rfl⟩ := h.call rfl
    obtain ⟨g, hg, rfl⟩ := h'.call rfl
    rw [String.toList_append, String.toList_append, List.append_assoc, List.append_assoc,
      List.append_cancel_left_eq] at heq
    rw [String.toList_inj.mp (hx.front_unique hx' hf hg heq)]
  | conditional => rw [h.branch (.inl rfl), h'.branch (.inl rfl)]
  | elseIf => rw [h.branch (.inr rfl), h'.branch (.inr rfl)]
  | element => exact absurd rfl h.ofScript
  | root | importDecl | exportDecl | sub | funBlock | variableDecl | externDecl | macroCall | directive
  | useDecl | methodReference | otherwise => exact absurd rfl hrepeats

end Tags

end NodeKind

/-- A construct and all in it are tagged by their kinds. -/
inductive Construct.Told : Construct → Prop
  | leaf (kind : NodeKind) (tag : String) (tokens : Extent) (line : Nat) (firstArg : Option String)
      (tags : kind.Tags tag) : Told (.leaf kind tag tokens line firstArg)
  | block (kind : NodeKind) (tag : String) (tokens : Extent) (line : Nat) (braces : Braces)
      (body : List Construct) (tags : kind.Tags tag) (inside : ∀ c ∈ body, Told c) :
      Told (.block kind tag tokens line braces body)

namespace Script

variable {n : Nat} {kind : NodeKind} {tag : String} {first : Option String} {ts q : List Token}

/-- No name in a list of tokens has a colon in it. -/
def PlainNames (ts : List Token) : Prop := ∀ t ∈ ts, t.kind = .ident → ':' ∉ t.lexeme.toList

theorem PlainNames.suffix (h : PlainNames ts) (hq : q <:+ ts) : PlainNames q :=
  fun t ht => h t (hq.subset ht)

private theorem tags_of_append {k : NodeKind} (rest : List Char)
    (htag : tag.toList = k.name.toList ++ ':' :: rest) (hk : k.repetition = .replaces) : k.Tags tag := by
  refine ⟨⟨_, .cons rest, htag⟩, ?_, ?_, ?_⟩
  · rintro rfl
    cases hk
  · rintro (rfl | rfl) <;> cases hk
  · rintro rfl
    cases hk

private theorem tags_of_tagWith {k : NodeKind} {front args : String} (rest : List Char)
    (hfront : front.toList = k.name.toList ++ ':' :: rest) (hk : k.repetition = .replaces) :
    k.Tags (tagWith front args) := by
  unfold tagWith
  split
  · exact tags_of_append rest hfront hk
  · refine tags_of_append (rest ++ ':' :: args.toList) ?_ hk
    simp [toString, hfront]

private theorem tags_of_name (hrepeats : kind ≠ .funCall) (hkind : kind ≠ .element) :
    kind.Tags kind.name :=
  ⟨⟨[], rfl, by simp⟩, fun h => absurd h hrepeats, fun _ => rfl, hkind⟩

theorem LeafBody.tags (h : LeafBody kind tag first ts q) (hts : PlainNames ts) : kind.Tags tag := by
  cases kind with
  | importDecl =>
    obtain ⟨-, m, -, x, rfl, -⟩ := h
    exact tags_of_append (unquoted ⟨.str, x, .origin⟩).toList (by simp [toString, NodeKind.name]) rfl
  | exportDecl =>
    obtain ⟨-, m, -, k, -, l, ⟨x, rfl, -⟩, -⟩ := h
    exact tags_of_append x.toList (by simp [toString, NodeKind.name]) rfl
  | externDecl =>
    obtain ⟨-, m, -, x, k, -, y, rfl, -⟩ := h
    exact tags_of_append (x.toList ++ ':' :: y.toList) (by simp [toString, NodeKind.name]) rfl
  | useDecl =>
    obtain ⟨-, m, -, x, k, -, args, rfl, -⟩ := h
    exact tags_of_append (x.toList ++ ':' :: args.toList) (by simp [toString, NodeKind.name]) rfl
  | directive =>
    obtain ⟨-, m, -, x, k, -, args, rfl, -⟩ := h
    exact tags_of_tagWith x.toList (by simp [toString, NodeKind.name]) rfl
  | macroCall =>
    obtain ⟨-, x, rfl, -⟩ := h
    exact tags_of_append x.toList (by simp [toString, NodeKind.name]) rfl
  | variableDecl =>
    obtain ⟨-, x, m, -, y, k, ⟨rfl, -⟩, -⟩ := h
    exact tags_of_append (x.toList ++ ':' :: y.toList) (by simp [toString, NodeKind.name]) rfl
  | methodReference =>
    obtain ⟨-, x, m, -, k, -, y, l, ⟨rfl, -⟩, -⟩ := h
    exact tags_of_append (x.toList ++ ':' :: y.toList) (by simp [toString, NodeKind.name]) rfl
  | funCall =>
    obtain ⟨x, rfl, m, ⟨t, rfl, ht⟩, -⟩ := h
    simp only [isKeyword, Bool.and_eq_true, beq_iff_eq] at ht
    obtain ⟨⟨hident, -⟩, rfl⟩ := ht
    refine ⟨⟨':' :: t.lexeme.toList, .cons _, by simp [toString, NodeKind.name]⟩,
      fun _ => ⟨t.lexeme, hts t (by simp) hident, by simp [toString]⟩, ?_, by decide⟩
    rintro (h | h) <;> cases h
  | root | sub | funBlock | conditional | elseIf | otherwise | element => exact h.elim

theorem Opens.tags (h : Opens kind tag ts q) : kind.Tags tag := by
  cases kind with
  | sub =>
    obtain ⟨m, -, x, k, ⟨rfl, -⟩, -⟩ := h
    exact tags_of_append x.toList (by simp [toString, NodeKind.name]) rfl
  | funBlock =>
    obtain ⟨x, m, -, args, rfl, -⟩ := h
    exact tags_of_tagWith x.toList (by simp [toString, NodeKind.name]) rfl
  | conditional | elseIf | otherwise =>
    obtain rfl := h.1
    exact tags_of_name (by decide) (by decide)
  | root | importDecl | exportDecl | externDecl | useDecl | directive | macroCall | variableDecl
  | methodReference | funCall | element => exact h.elim

/-- A construct read from tokens with plain names is told, and leaves plain names behind. -/
private def TellsFrom (ts : List Token) (c : Construct) (q : List Token) : Prop :=
  PlainNames ts → c.Told ∧ PlainNames q

private theorem told_of_run {cs : List Construct} (h : Run .script TellsFrom ts cs q) (hts : PlainNames ts) :
    (∀ c ∈ cs, c.Told) ∧ PlainNames q := by
  induction h with
  | nil => exact ⟨by simp, hts⟩
  | skip passed _ ih => exact ih (hts.suffix passed.suffix)
  | cons first _ _ ih =>
    obtain ⟨hc, hm⟩ := first hts
    obtain ⟨hcs, hq⟩ := ih hm
    exact ⟨List.forall_mem_cons.mpr ⟨hc, hcs⟩, hq⟩

/-- All constructs of a script are tagged by their kinds. -/
theorem told_of_statements {text : List Char} {s : Source} {cs : List Construct}
    (hs : source text = .ok s) (h : statements n s.tokens = .ok cs) : ∀ c ∈ cs, c.Told := by
  refine (told_of_run (run_of_statements ?_ ?_ h) (colon_not_mem_name hs)).1
  · rintro kind ts q c hleaf hts
    obtain ⟨tag, first, k, hbody, -, rfl⟩ := id hleaf
    exact ⟨.leaf _ _ _ _ _ (LeafBody.tags hbody hts), hts.suffix hleaf.suffix⟩
  · intro kind tag ts k m l o q body more hopens hm hbody _ ho hmore _ hts
    obtain ⟨hinside, hl⟩ := told_of_run hbody (hts.suffix (hm.suffix.trans hopens.suffix))
    obtain ⟨hclauses, hq⟩ := told_of_run hmore (hl.suffix ho.suffix)
    exact ⟨.block _ _ _ _ _ _ (Opens.tags hopens) (List.forall_mem_append.mpr ⟨hinside, hclauses⟩), hq⟩

end Script

end ModWeave
