import ModWeave.Proofs.Merge.Completion
import ModWeave.Proofs.Merge.Difference
import ModWeave.Proofs.Token.Places
import ModWeave.Proofs.Tree.Document
import ModWeave.Proofs.Tree.Lines

/-!
Comments put into a document. The document is read still, and nothing in it is different unless the comment stands in
the middle of a text: this text is two texts then.
-/
namespace ModWeave

/-- Nothing differs between two trees exactly when they have the same content. -/
theorem diff_eq_none_iff {l : Language} {text text' : List Char} {base mod : Tree} (names : SourceNames)
    (hbase : l.parse text = .ok base) (hmod : l.parse text' = .ok mod) :
    diff names base mod = some .none ↔ base.sameContent mod := by
  constructor
  · intro h
    exact ((exactAt_of_diff hbase hmod h).isEmpty_iff hbase hmod).mp rfl
  · exact diff_of_sameContent (Language.keyed_of_parse hbase) (Language.keyed_of_parse hmod)
      (Language.isContainer_of_parse hbase)

namespace Markup

open Text

mutual

/-- The same element, but for one text in it that is two there. -/
inductive Element.Divided : Element → Element → Prop
  | filled {name : String} {attributes : List Attribute} {x x' : Row} (h : Row.Divided x x') :
      Element.Divided (.filled name attributes x) (.filled name attributes x')

inductive Row.Divided : Row → Row → Prop
  | here {a b c : String} {more : Row} : Row.Divided (.text a more) (.text b (.text c more))
  | text {a : String} {x x' : Row} (h : Row.Divided x x') : Row.Divided (.text a x) (.text a x')
  | first {e e' : Element} {more : Row} (h : Element.Divided e e') : Row.Divided (.element e more) (.element e' more)
  | later {e : Element} {x x' : Row} (h : Row.Divided x x') : Row.Divided (.element e x) (.element e x')

end

section Dividing

private theorem split_of_append {α : Type} {u v w z : List α} {t : α} (h : u ++ v = w ++ t :: z) :
    (∃ w', w = u ++ w' ∧ v = w' ++ t :: z) ∨ ∃ z', z = z' ++ v ∧ u = w ++ t :: z' := by
  obtain ⟨w', rfl, hv⟩ | ⟨c, rfl, hc⟩ := List.append_eq_append_iff.mp h
  · exact .inl ⟨w', rfl, hv⟩
  · cases c with
    | nil => exact .inl ⟨[], by simp, by simpa using hc.symm⟩
    | cons d c =>
      cases hc
      exact .inr ⟨c, rfl, rfl⟩

theorem text_not_mem_startTag (a name : String) (attributes : List Attribute) :
    (TokenKind.text, a) ∉ startTag name attributes := by
  simp [startTag, Attribute.lexemes]

mutual

/-- Two texts may stand for one wherever it is in an element. -/
theorem Element.exists_divided (a b c : String) : ∀ (e : Element) {u v : List Lexeme},
    e.lexemes = u ++ (.text, a) :: v →
      ∃ e', e'.lexemes = u ++ (.text, b) :: (.text, c) :: v ∧ Element.Divided e e'
  | .closed name attributes, u, v, h => by
    have hmem : (TokenKind.text, a) ∈ (Element.closed name attributes).lexemes := by simp [h]
    simp [Element.lexemes, text_not_mem_startTag] at hmem
  | .filled name attributes contents, u, v, h => by
    rw [Element.lexemes, ← List.singleton_append, ← List.append_assoc] at h
    have hopening : (TokenKind.text, a) ∉ startTag name attributes ++ [(.punct, ">")] := by
      simp [text_not_mem_startTag]
    obtain ⟨w, rfl, hw⟩ := (split_of_append h).resolve_right fun ⟨_, _, heq⟩ => hopening (by simp [heq])
    have hclosing : (TokenKind.text, a) ∉ [(.punct, "</"), (.ident, name), (.punct, ">")] := by simp
    obtain ⟨z, rfl, hcontents⟩ := (split_of_append hw).resolve_left fun ⟨_, _, heq⟩ => hclosing (by simp [heq])
    obtain ⟨x', hx', hdivided⟩ := Row.exists_divided a b c contents hcontents
    exact ⟨.filled name attributes x', by simp [Element.lexemes, hx'], .filled hdivided⟩

theorem Row.exists_divided (a b c : String) : ∀ (x : Row) {u v : List Lexeme}, x.lexemes = u ++ (.text, a) :: v →
    ∃ x', x'.lexemes = u ++ (.text, b) :: (.text, c) :: v ∧ Row.Divided x x'
  | .nil, u, v, h => by simp [Row.lexemes] at h
  | .text d more, [], v, h => by
    obtain ⟨-, rfl⟩ := List.cons.inj h
    exact ⟨.text b (.text c more), rfl, .here⟩
  | .text d more, y :: u, v, h => by
    obtain ⟨rfl, hmore⟩ := List.cons.inj h
    obtain ⟨x', hx', hdivided⟩ := Row.exists_divided a b c more hmore
    exact ⟨.text d x', by simp [Row.lexemes, hx'], .text hdivided⟩
  | .element e more, u, v, h => by
    obtain ⟨w, rfl, hmore⟩ | ⟨z, rfl, he⟩ := split_of_append h
    · obtain ⟨x', hx', hdivided⟩ := Row.exists_divided a b c more hmore
      exact ⟨.element e x', by simp [Row.lexemes, hx'], .later hdivided⟩
    · obtain ⟨e', he', hdivided⟩ := Element.exists_divided a b c e he
      exact ⟨.element e' more, by simp [Row.lexemes, he'], .first hdivided⟩

end

end Dividing

section Divided

variable {e e' : Element} {x x' : Row}

theorem Element.Divided.tag_eq (h : Element.Divided e e') (i : Nat) : e'.tag i = e.tag i := by
  cases h
  rfl

theorem Row.Divided.hasText_eq : ∀ {x x' : Row}, Row.Divided x x' → x'.hasText = x.hasText
  | _, _, .here => rfl
  | _, _, .text _ => rfl
  | _, _, .first _ => rfl
  | _, _, .later h => h.hasText_eq

/-- The elements of both rows have the same keys. -/
theorem Row.Divided.keysFrom_eq : ∀ {x x' : Row} (keys : List String), Row.Divided x x' →
    keysFrom keys x'.elements = keysFrom keys x.elements
  | _, _, _, .here => rfl
  | _, _, keys, .text h => h.keysFrom_eq keys
  | _, _, keys, .first h => by rw [elements, elements, keysFrom_cons, keysFrom_cons, h.tag_eq]
  | _, _, keys, .later h => by rw [elements, elements, keysFrom_cons, keysFrom_cons, h.keysFrom_eq]

theorem Row.Divided.keysOf_eq (h : Row.Divided x x') : keysOf x'.elements = keysOf x.elements := h.keysFrom_eq []

theorem Element.Divided.isContainer_eq (h : Element.Divided e e') : e'.isContainer = e.isContainer := by
  cases h with
  | @filled name attributes x x' h =>
    have hlength := congrArg List.length h.keysOf_eq
    rw [length_keysOf, length_keysOf] at hlength
    have hempty : x'.elements.isEmpty = x.elements.isEmpty := by
      rw [Bool.eq_iff_iff, List.isEmpty_iff_length_eq_zero, List.isEmpty_iff_length_eq_zero, hlength]
    rw [Element.isContainer, Element.isContainer, h.hasText_eq, hempty]

mutual

theorem Element.Divided.length_eq : ∀ {e e' : Element}, Element.Divided e e' →
    e'.lexemes.length = e.lexemes.length + 1
  | _, _, .filled h => by
    simp only [Element.lexemes, List.length_append, List.length_cons, h.length_eq]
    omega

theorem Row.Divided.length_eq : ∀ {x x' : Row}, Row.Divided x x' → x'.lexemes.length = x.lexemes.length + 1
  | _, _, .here => rfl
  | _, _, .text h => by rw [Row.lexemes, Row.lexemes, List.length_cons, List.length_cons, h.length_eq]
  | _, _, .first h => by
    rw [Row.lexemes, Row.lexemes, List.length_append, List.length_append, h.length_eq]
    omega
  | _, _, .later h => by
    rw [Row.lexemes, Row.lexemes, List.length_append, List.length_append, h.length_eq]
    omega

end

end Divided

section Differing

variable {s s' : Source}

/-- The nodes of a row are found under their keys. -/
theorem Row.indexed_nodes (s : Source) (k : Nat) (x : Row) :
    (ChildMap.mk (x.nodes s k (keysOf x.elements)) (keysOf x.elements).zipIdx).Indexed := by
  have h := Row.attachAll_constructs s k x holds_empty
  have hindexed := h.indexed
  rw [h.children] at hindexed
  exact hindexed

/-- Containers differ that have different nodes under one key. -/
private theorem not_sameContent_of_twins {h h' : ModWeave.Head} {b b' : Option Braces} {x x' : Row} {k k' : Nat}
    {n n' : Node} (hn : n ∈ x.nodes s k (keysOf x.elements)) (hn' : n' ∈ x'.nodes s' k' (keysOf x'.elements))
    (hkey : n'.signature = n.signature) (hdiffer : ¬ sameContent s s' n n' = true) :
    ¬ sameContent s s' (.container h b (x.nodes s k (keysOf x.elements)) (keysOf x.elements).zipIdx)
      (.container h' b' (x'.nodes s' k' (keysOf x'.elements)) (keysOf x'.elements).zipIdx) = true := by
  intro hsame
  obtain ⟨twin, htwin, hcontent⟩ := (sameContent_container.mp hsame).2.2 n hn
  have hfound := (Row.indexed_nodes s' k' x').get?_eq_some.mpr ⟨hn', hkey⟩
  cases htwin.symm.trans hfound
  exact hdiffer hcontent

private theorem length_slice {k l : Nat} (h : k + l ≤ s.tokens.length) : (s.slice ⟨k, k + l⟩).length = l := by
  simp only [Source.slice, List.length_take, List.length_drop]
  omega

mutual

/-- An element has other content when one text in it is two. -/
theorem Element.Divided.differs {k k' : Nat} (key : String) : ∀ {e e' : Element}, Element.Divided e e' →
    k + e.lexemes.length ≤ s.tokens.length → k' + e'.lexemes.length ≤ s'.tokens.length →
      ¬ sameContent s s' (e.node s k key) (e'.node s' k' key) = true
  | .filled name attributes x, .filled _ _ x', .filled h, hk, hk' => by
    have hdivided : Element.Divided (.filled name attributes x) (.filled name attributes x') := .filled h
    rw [Element.node, Element.node]
    dsimp only
    rw [hdivided.isContainer_eq]
    split
    · -- a container has no text of its own: the text is in one of its elements
      rename_i hcontainer
      have htext : x.hasText = false := by
        rw [Element.isContainer, Bool.and_eq_true] at hcontainer
        simpa using hcontainer.2
      have hlength {k l : Nat} {x : Row} (hk : k + (Element.filled name attributes x).lexemes.length ≤ l) :
          k + (startTag name attributes).length + 1 + x.lexemes.length ≤ l := by
        simp only [Element.lexemes, List.length_append, List.length_cons] at hk
        omega
      obtain ⟨n, hn, n', hn', hkey, hdiffer⟩ := h.twins (keysOf x.elements) htext (hlength hk) (hlength hk')
      rw [← h.keysOf_eq] at hn'
      exact not_sameContent_of_twins hn hn' hkey hdiffer
    · -- a leaf is compared by its tokens, and has one more
      intro hsame
      rw [sameContent, sameTokens, beq_iff_eq] at hsame
      have hlength := congrArg List.length hsame
      rw [List.length_map, List.length_map, length_slice hk, length_slice hk', hdivided.length_eq] at hlength
      omega

/-- A row has an element of other content under the same key. -/
theorem Row.Divided.twins {k k' : Nat} (keys : List String) : ∀ {x x' : Row}, Row.Divided x x' →
    x.hasText = false → k + x.lexemes.length ≤ s.tokens.length → k' + x'.lexemes.length ≤ s'.tokens.length →
      ∃ n ∈ x.nodes s k keys, ∃ n' ∈ x'.nodes s' k' keys, n'.signature = n.signature ∧ ¬ sameContent s s' n n' = true
  | .element e more, .element e' _, .first h, htext, hk, hk' => by
    rw [Row.lexemes, List.length_append] at hk hk'
    refine ⟨_, List.mem_cons_self, _, List.mem_cons_self, ?_, h.differs _ (by omega) (by omega)⟩
    rw [e.signature_node, e'.signature_node]
  | .element e x, .element _ x', .later h, htext, hk, hk' => by
    rw [Row.lexemes, List.length_append] at hk hk'
    have hmore : k + e.lexemes.length + x.lexemes.length ≤ s.tokens.length := by omega
    have hmore' : k' + e.lexemes.length + x'.lexemes.length ≤ s'.tokens.length := by omega
    obtain ⟨n, hn, n', hn', hdiffer⟩ := h.twins keys.tail htext hmore hmore'
    exact ⟨n, List.mem_cons_of_mem _ hn, n', List.mem_cons_of_mem _ hn', hdiffer⟩

end

theorem Row.Divided.differs {x x' : Row} (h : Row.Divided x x') (htext : x.hasText = false)
    (hs : s.lexemes = x.lexemes) (hs' : s'.lexemes = x'.lexemes) :
    ¬ (documentTree s x).sameContent (documentTree s' x') = true := by
  have hlength : 0 + x.lexemes.length ≤ s.tokens.length := by simp [← hs, Source.lexemes]
  have hlength' : 0 + x'.lexemes.length ≤ s'.tokens.length := by simp [← hs', Source.lexemes]
  obtain ⟨n, hn, n', hn', hkey, hdiffer⟩ := h.twins (keysOf x.elements) htext hlength hlength'
  rw [← h.keysOf_eq] at hn'
  exact not_sameContent_of_twins hn hn' hkey hdiffer

end Differing

section Same

mutual

/-- The sources tell the nodes of an element nothing but their lines. -/
theorem Element.unlined_node (s s' : Source) (k : Nat) (key : String) : ∀ e : Element,
    (e.node s' k key).unlined = (e.node s k key).unlined
  | .closed .. => rfl
  | .filled name attributes contents => by
    rw [Element.node, Element.node]
    dsimp only
    split
    · rw [Node.unlined, Node.unlined, Row.unlined_nodes s s']
    · rfl

theorem Row.unlined_nodes (s s' : Source) (k : Nat) (keys : List String) : ∀ x : Row,
    unlinedAll (x.nodes s' k keys) = unlinedAll (x.nodes s k keys)
  | .nil => rfl
  | .text _ more => Row.unlined_nodes s s' (k + 1) keys more
  | .element e more => by
    rw [Row.nodes, Row.nodes, unlinedAll, unlinedAll, Element.unlined_node s s', Row.unlined_nodes s s']

end

/-- Texts of the same lexemes have trees of the same content. -/
theorem sameContent_documentTree {s s' : Source} {x : Row} (hkeyed : (documentTree s x).root.Keyed)
    (hs : s'.lexemes = s.lexemes) : (documentTree s x).sameContent (documentTree s' x) := by
  have hlength : s'.tokens.length = s.tokens.length := by simpa [Source.lexemes] using congrArg List.length hs
  refine hkeyed.sameContent_of_unlined hs ?_
  simp only [documentTree, Node.unlined, hlength, Row.unlined_nodes s s']

end Same

section Comments

variable {text text' before data after comment : List Char} {t t' : Tree}

/-- The place between the two is in the middle of a text: something stands on both sides of it before the next tag. -/
def Parts (data after : List Char) : Prop :=
  (∃ c ∈ data, isBlank c = false) ∧ ∃ c ∈ after.takeWhile (· != '<'), isBlank c = false

/-- Beside a text, or where there is none, character data reads the same in two pieces as in one. -/
theorem textOf_append_of_not_parts (h : ¬ Parts data after) :
    textOf (data ++ after.takeWhile (· != '<')) = textOf data ++ textOf (after.takeWhile (· != '<')) := by
  by_cases hdata : ∀ c ∈ data, isBlank c = true
  · rw [textOf_blank_append hdata, textOf_of_blank hdata, List.nil_append]
  · have hafter : ∀ c ∈ after.takeWhile (· != '<'), isBlank c = true := by
      by_contra hafter
      push Not at hdata hafter
      simp only [ne_eq, Bool.not_eq_true] at hdata hafter
      exact h ⟨hdata, hafter⟩
    rw [textOf_append_blank hafter, textOf_of_blank hafter, List.append_nil]

private theorem exists_source {ls : List Lexeme} (h : Language.markup.lexemes? text = some ls) :
    ∃ s, source text = .ok s ∧ s.lexemes = ls := by
  obtain ⟨s, hs, hlexemes⟩ := Option.map_eq_some_iff.mp h
  exact ⟨s, ok_of_toOption hs, hlexemes⟩

/-- A document with a comment put into it is read, and has the same content unless the comment parts a text. -/
private theorem parse_inserted (ht : parse (before ++ (data ++ after)) = .ok t) (hbefore : Passage before)
    (hdata : '<' ∉ data) (hcomment : Comment comment) :
    ∃ t', parse (before ++ (data ++ (comment ++ after))) = .ok t' ∧ (t.sameContent t' ↔ ¬ Parts data after) := by
  obtain ⟨s, hs, -⟩ := bind_eq_ok.mp ht
  obtain ⟨x, htext, hx⟩ := (parses_iff_elements hs).1.mp ⟨t, ht⟩
  obtain rfl : documentTree s x = t := Except.ok.inj ((parse_eq hs htext hx).symm.trans ht)
  have hlexemes := Language.lexemes?_of_source (l := .markup) hs
  obtain ⟨u, v, hwhole, hapart⟩ := lexemes?_of_inserted hbefore hdata hcomment hlexemes
  obtain ⟨s', hs', hlexemes'⟩ := exists_source hapart
  by_cases hparts : Parts data after
  · obtain ⟨⟨c, hc, hblank⟩, d, hd, hblank'⟩ := hparts
    obtain ⟨a, ha⟩ := exists_textOf (List.mem_append_left _ hc) hblank
    obtain ⟨b, hb⟩ := exists_textOf hc hblank
    obtain ⟨b', hb'⟩ := exists_textOf hd hblank'
    rw [ha, hx] at hwhole
    obtain ⟨x', hx', hdivided⟩ := Row.exists_divided a b b' x hwhole
    rw [hb, hb'] at hlexemes'
    have htree := parse_eq hs' (hdivided.hasText_eq.trans htext) (hlexemes'.trans hx'.symm)
    refine ⟨_, htree, iff_of_false ?_ (not_not_intro ⟨⟨c, hc, hblank⟩, d, hd, hblank'⟩)⟩
    exact hdivided.differs htext hx (hlexemes'.trans hx'.symm)
  · rw [textOf_append_of_not_parts hparts, List.append_assoc] at hwhole
    have hsame : s'.lexemes = s.lexemes := hlexemes'.trans hwhole.symm
    have hkeyed : (documentTree s x).root.Keyed := Language.keyed_of_parse (l := .markup) ht
    exact ⟨_, parse_eq hs' htext (hsame.trans hx), iff_of_true (sameContent_documentTree hkeyed hsame) hparts⟩

/-- **A comment changes nothing but a text that it parts.** Every place of a document is inside an item or in character
data. With a comment put in character data, the document is read, and nothing is different on either side, unless there
is text before the comment and behind it, with no tag between: this text is read as two, which differ from it. -/
theorem comment_changes_only_a_parted_text (ht : parse text = .ok t) :
    (∀ before after, text = before ++ after → Inside before after ∨ Outside before) ∧
    ∀ before data after comment, text = before ++ (data ++ after) → Passage before → '<' ∉ data → Comment comment →
      ∃ t', parse (before ++ (data ++ (comment ++ after))) = .ok t' ∧
        ∀ names, (diff names t t' = some .none ↔ ¬ Parts data after) ∧
          (diff names t' t = some .none ↔ ¬ Parts data after) := by
  constructor
  · rintro before after rfl
    obtain ⟨s, hs, -⟩ := bind_eq_ok.mp ht
    obtain ⟨gone, data, hsplit, hgone, hdata⟩ := outside_of_tokensFrom (tokensFrom_of_source hs).2
    exact inside_or_outside hgone hdata hsplit
  · rintro before data after comment rfl hbefore hdata hcomment
    obtain ⟨t', ht', hsame⟩ := parse_inserted ht hbefore hdata hcomment
    have hsymm : t'.sameContent t ↔ t.sameContent t' := by
      have hkeyed : t.root.Keyed := Language.keyed_of_parse (l := .markup) ht
      have hkeyed' : t'.root.Keyed := Language.keyed_of_parse (l := .markup) ht'
      exact ⟨hkeyed'.sameContent_symm hkeyed, hkeyed.sameContent_symm hkeyed'⟩
    refine ⟨t', ht', fun names => ⟨?_, ?_⟩⟩
    · rw [diff_eq_none_iff (l := .markup) names ht ht', hsame]
    · rw [diff_eq_none_iff (l := .markup) names ht' ht, hsymm, hsame]

/-- A comment behind the blank before a text, with a tag and dashes in it. -/
theorem comment_before_a_text : ∃ t t', parse "<a><b/> x</a>".toList = .ok t ∧
    parse "<a><b/> <!-- <c> -- -->x</a>".toList = .ok t' ∧
    ∀ names, diff names t t' = some .none ∧ diff names t' t = some .none := by
  have hparse : (parse "<a><b/> x</a>".toList).toOption.isSome := by decide +kernel
  obtain ⟨t, ht⟩ := Option.isSome_iff_exists.mp hparse
  have ht := ok_of_toOption ht
  have hopening : Item "<a>".toList := .tag (.char (by decide) (by decide) .nil) (by decide)
  have hclosed : Item "<b/>".toList :=
    .tag (.char (by decide) (by decide) (.char (by decide) (by decide) .nil)) (by decide)
  have hbefore : Passage ([] ++ ("<a>".toList ++ ([] ++ ("<b/>".toList ++ [])))) :=
    .item List.not_mem_nil hopening (.item List.not_mem_nil hclosed .nil)
  have hcomment : Comment "<!-- <c> -- -->".toList := ⟨by decide +kernel, by decide +kernel, by decide +kernel⟩
  obtain ⟨t', ht', hdiff⟩ := (comment_changes_only_a_parted_text ht).2 _ " ".toList "x</a>".toList _ rfl hbefore
    (by decide) hcomment
  have hparts : ¬ Parts " ".toList "x</a>".toList := by
    rintro ⟨⟨c, hc, hblank⟩, -⟩
    obtain rfl := List.mem_singleton.mp hc
    exact absurd hblank (by decide)
  exact ⟨t, t', ht, ht', fun names => ⟨(hdiff names).1.mpr hparts, (hdiff names).2.mpr hparts⟩⟩

/-- A text is two with a comment in it, and the element is another. -/
theorem comment_parts_a_text : Passage "<a>".toList ∧ '<' ∉ "x".toList ∧ Comment "<!--c-->".toList ∧
    ∃ t t', parse "<a>xy</a>".toList = .ok t ∧ parse "<a>x<!--c-->y</a>".toList = .ok t' ∧
      ∀ names, diff names t t' ≠ some .none ∧ diff names t' t ≠ some .none := by
  have hopening : Item "<a>".toList := .tag (.char (by decide) (by decide) .nil) (by decide)
  have hbefore : Passage ([] ++ ("<a>".toList ++ [])) := .item List.not_mem_nil hopening .nil
  refine ⟨hbefore, by decide, ⟨by decide +kernel, by decide +kernel, by decide +kernel⟩, ?_⟩
  have hsame : ((parse "<a>xy</a>".toList).toOption.bind fun t =>
      (parse "<a>x<!--c-->y</a>".toList).toOption.map fun t' => (t.sameContent t', t'.sameContent t)) =
        some (false, false) := by decide +kernel
  obtain ⟨t, ht, hsame⟩ := Option.bind_eq_some_iff.mp hsame
  obtain ⟨t', ht', hsame⟩ := Option.map_eq_some_iff.mp hsame
  rw [Prod.mk.injEq] at hsame
  have ht := ok_of_toOption ht
  have ht' := ok_of_toOption ht'
  refine ⟨t, t', ht, ht', fun names => ⟨?_, ?_⟩⟩
  · rw [ne_eq, diff_eq_none_iff (l := .markup) names ht ht', hsame.1]
    exact Bool.false_ne_true
  · rw [ne_eq, diff_eq_none_iff (l := .markup) names ht' ht, hsame.2]
    exact Bool.false_ne_true

end Comments

end Markup
end ModWeave
