import ModWeave.Proofs.Tree.Element
import ModWeave.Proofs.Tree.Form

/-! Documents as forms. What is read from a document is sound, and sound forms are read back wherever
their lexemes stand. -/
namespace ModWeave.Markup

/-- The end of a start tag. -/
def opening : Lexeme := (.punct, ">")

/-- The start of an end tag. -/
def closing : Lexeme := (.punct, "</")

/-- Forms that documents are made of. Where the lexemes of a leaf or of a header stand, the leaf or the
header is read. -/
inductive Sound : Form → Prop
  | leaf (name : String) (id : Option String) (x : Lexeme) (ls : List Lexeme)
      (reads : ∀ u r, u.map Token.content = x :: ls → Whole name id true (u ++ r) r) :
      Sound (.leaf ⟨.element, elementTag name id, none⟩ x ls)
  | block (name : String) (id : Option String) (header : List Lexeme) (body : List Form)
      (reads : ∀ u r, u.map Token.content = header → headContent r = some opening →
        Head name id (u ++ r) r)
      (elements : ∀ f ∈ body, Sound f) (filled : body ≠ []) :
      Sound (.block ⟨.element, elementTag name id, none⟩ header opening body closing []
        [(.ident, name), (.punct, ">")])

theorem Sound.weight {f : Form} : Sound f → f.weight = 1
  | .leaf .. | .block .. => rfl

theorem Sound.plain {f : Form} : Sound f → f.isClause = false
  | .leaf .. | .block .. => rfl

theorem Sound.ordered {f : Form} (h : Sound f) : f.ordered = true := by
  induction h with
  | leaf => rfl
  | block name id header body reads elements filled ih =>
    simp [Form.ordered, orderedAll_iff.mpr ih, orderedAll, elseLast]

theorem Sound.constructs {f : Form} (h : Sound f) (s : Source) (k i : Nat) :
    ∃ c, f.constructs s k i = [c] := by
  cases h with
  | leaf | block => exact ⟨_, rfl⟩

/-- The last lexeme of a form never runs into what stands behind it. -/
theorem Sound.closes {f : Form} (h : Sound f) :
    ∃ y, f.lexemes.getLast? = some y ∧ Language.markup.closes y = true := by
  cases h with
  | leaf name id x ls reads =>
    have hwhole := reads ((x :: ls).map someToken) [] (content_someTokens _)
    obtain ⟨v, t, hv, ht⟩ := hwhole.last
    have hlast : (x :: ls) = v.map Token.content ++ [t.content] := by
      rw [← content_someTokens (x :: ls), hv, List.map_append]
      rfl
    refine ⟨t.content, by rw [Form.lexemes, hlast, List.getLast?_concat], ?_⟩
    obtain ht | ht := ht <;> rw [ht] <;> rfl
  | block name id header body =>
    refine ⟨(.punct, ">"), ?_, rfl⟩
    simp [Form.lexemes, List.getLast?_append, List.getLast?_cons]

section Soundness

variable {s : Source}

private theorem leaf_sound {k i : Nat} {ts q : List Token} {name : String} {id : Option String}
    (hts : s.Tail k ts) (h : Whole name id true ts q) :
    ∃ f u, Sound f ∧ ts = u ++ q ∧ u.map Token.content = f.lexemes ∧
      [wholeAt s.tokens.length i name id ts q] = f.constructs s k i := by
  obtain ⟨u, hne, rfl, hlocal⟩ := enclosed_whole name id true q h
  obtain ⟨t, u, rfl⟩ := List.exists_cons_of_ne_nil hne
  refine ⟨.leaf ⟨.element, elementTag name id, none⟩ t.content (u.map Token.content), t :: u,
    .leaf name id _ _ fun u' r' hu' => hlocal u' r' hu', rfl, rfl, ?_⟩
  rw [wholeAt, hts.line, hts.position, hts.right.position]
  simp only [Form.constructs, List.length_map, List.length_cons]
  rw [Nat.add_comm u.length, ← Nat.add_assoc]

mutual

/-- What is read as an element stands for a sound form. -/
theorem element_sound {k i : Nat} {ts q : List Token} {c : Construct} (hts : s.Tail k ts)
    (h : Gives (element s.tokens.length i ts) c q) :
    ∃ f u, Sound f ∧ ts = u ++ q ∧ u.map Token.content = f.lexemes ∧ [c] = f.constructs s k i := by
  obtain ⟨name, id, m, hhead, ⟨hsign, rfl⟩ | ⟨a, inner, l, hsign, hinner, hend, rfl⟩⟩ :=
    gives_element.mp h
  · exact leaf_sound hts (.closed hhead hsign)
  have hlt := Nat.lt_trans hsign.length_lt hhead.length_lt
  cases hwhole : inner.elements.isEmpty || inner.hasText with
  | true => exact leaf_sound hts (hwhole ▸ .open hhead hsign (inner_of_contents hinner) hend)
  | false =>
    rw [Bool.or_eq_false_iff] at hwhole
    obtain ⟨u, rfl, -, hlocal⟩ := local_head name id m hhead
    obtain ⟨t, rfl, ht⟩ := hsign
    obtain ⟨fs, v, t', hfs, rfl, ht', hv, hclosing, helements⟩ :=
      contents_sound hts.right.tail hinner hwhole.2
    obtain ⟨b, ⟨w, rfl, hw⟩, ⟨w', rfl, hw'⟩⟩ := endTag_iff.mp hend
    have hne : fs ≠ [] := by
      rintro rfl
      rw [helements] at hwhole
      cases hwhole.1
    have hcontent : w.content = (.ident, name) := by
      rw [Bool.and_eq_true, beq_iff_eq, beq_iff_eq] at hw
      rw [Token.content, hw.1, hw.2]
    have ht : t.content = opening := content_of_isPunct ht
    have hw' : w'.content = (.punct, ">") := content_of_isPunct hw'
    refine ⟨.block ⟨.element, elementTag name id, none⟩ (u.map Token.content) opening fs closing []
      [(.ident, name), (.punct, ">")], u ++ t :: (v ++ [t', w, w']), ?_, by simp, ?_, ?_⟩
    · refine .block name id _ fs (fun u' r' hu' hr' => hlocal u' r' hu' ?_) hfs hne
      rw [hr', ← ht]
      rfl
    · simp [Form.lexemes, ht, hv, ht', hcontent, hw']
    · have hstop : s.Tail (k + (u ++ t :: (v ++ [t', w, w'])).length) q :=
        Source.Tail.right (by simpa using hts)
      have hlen : v.length = (lexemesAll fs).length := by rw [← hv, List.length_map]
      have hall : (u ++ t :: (v ++ [t', w, w'])).length =
          u.length + 1 + (lexemesAll fs).length + 1 + 2 := by
        simp only [List.length_append, List.length_cons, List.length_nil, hlen]
        omega
      rw [if_neg (by simp), hts.line, hts.position, hts.right.position, hstop.position, hall, hclosing,
        helements]
      simp [Form.constructs, hlen, constructsAll, Nat.add_assoc]
termination_by 2 * ts.length

theorem contents_sound {k i : Nat} {ts q : List Token} {name : String} {inner : Contents}
    (hts : s.Tail k ts) (h : Gives (contents s.tokens.length name i ts) inner q)
    (htext : inner.hasText = false) :
    ∃ fs u t, (∀ f ∈ fs, Sound f) ∧ ts = u ++ t :: q ∧ t.content = closing ∧
      u.map Token.content = lexemesAll fs ∧ inner.closing = k + u.length ∧
      inner.elements = constructsAll s k i fs := by
  obtain ⟨⟨t, rfl, ht⟩, rfl⟩ | ⟨m, more, hfirst, hmore, rfl⟩ | ⟨c, m, more, hfirst, hmore, rfl⟩ :=
    gives_contents.mp h
  · exact ⟨[], [], t, by simp, rfl, content_of_isPunct ht, rfl, hts.position, rfl⟩
  · cases htext
  · have hlt := hfirst.length_lt
    obtain ⟨f, u, hf, rfl, hu, hc⟩ := element_sound hts hfirst
    obtain ⟨fs, v, t, hfs, rfl, ht, hv, hclosing, helements⟩ := contents_sound hts.right hmore htext
    refine ⟨f :: fs, u ++ v, t, List.forall_mem_cons.mpr ⟨hf, hfs⟩, by simp, ht, ?_, ?_, ?_⟩
    · rw [List.map_append, hu, hv, lexemesAll_cons]
    · simp only [hclosing, List.length_append, Nat.add_assoc]
    · simp only [helements]
      rw [constructsAll, ← hc, ← hu, List.length_map, hf.weight, List.singleton_append]
termination_by 2 * ts.length + 1

end

/-- What is read from a list of tokens stands for sound forms. -/
theorem elements_sound {k i : Nat} {ts : List Token} {cs : List Construct} (hts : s.Tail k ts)
    (h : elements s.tokens.length i ts = .ok cs) :
    ∃ fs, (∀ f ∈ fs, Sound f) ∧ ts.map Token.content = lexemesAll fs ∧ cs = constructsAll s k i fs := by
  induction hn : ts.length using Nat.strongRecOn generalizing k i ts cs with
  | ind n ih =>
    subst hn
    obtain ⟨rfl, rfl⟩ | ⟨c, m, more, hc, hmore, rfl⟩ := elements_iff.mp h
    · exact ⟨[], by simp, rfl, rfl⟩
    · have hlt := hc.length_lt
      obtain ⟨f, u, hf, rfl, hu, hconstruct⟩ := element_sound hts hc
      obtain ⟨fs, hfs, hlexemes, rfl⟩ := ih _ hlt hts.right hmore rfl
      refine ⟨f :: fs, List.forall_mem_cons.mpr ⟨hf, hfs⟩, ?_, ?_⟩
      · rw [List.map_append, hu, hlexemes, lexemesAll_cons]
      · rw [constructsAll, ← hconstruct, ← hu, List.length_map, hf.weight, List.singleton_append]

end Soundness

section Completeness

/-- Where the lexemes of the form stand, it is read. -/
private def ReadBack (f : Form) : Prop :=
  ∀ (s : Source) (k : Nat) (u r : List Token), s.Tail k (u ++ r) → u.map Token.content = f.lexemes →
    ∀ i, ∃ c, Gives (element s.tokens.length i (u ++ r)) c r ∧ [c] = f.constructs s k i

/-- The elements in a block are read up to its end tag. -/
private theorem contents_readBack {fs : List Form} (hsound : ∀ f ∈ fs, Sound f)
    (hread : ∀ f ∈ fs, ReadBack f) {s : Source} {k : Nat} {u r : List Token} {t : Token}
    (hts : s.Tail k (u ++ t :: r)) (hu : u.map Token.content = lexemesAll fs)
    (ht : t.content = closing) (name : String) (i : Nat) :
    Gives (contents s.tokens.length name i (u ++ t :: r))
      ⟨k + u.length, false, constructsAll s k i fs⟩ r := by
  induction fs generalizing k u i with
  | nil =>
    obtain rfl : u = [] := by simpa using hu
    rw [List.nil_append] at hts ⊢
    refine gives_contents.mpr (.inl ⟨⟨t, rfl, isPunct_of_content ht⟩, ?_⟩)
    rw [hts.position]
    rfl
  | cons f fs ih =>
    obtain ⟨v, w, rfl, hv, hw⟩ := List.map_eq_append_iff.mp hu
    rw [List.append_assoc] at hts ⊢
    rw [List.forall_mem_cons] at hsound hread
    obtain ⟨c, hc, hconstruct⟩ := hread.1 s k v _ hts hv i
    have hmore := ih hsound.2 hread.2 hts.right hw (i + 1)
    refine gives_contents.mpr (.inr (.inr ⟨c, _, _, hc, hmore, ?_⟩))
    rw [constructsAll, ← hconstruct, ← hv, List.length_map, hsound.1.weight, List.length_append,
      Nat.add_assoc]
    rfl

theorem readBack {f : Form} (hf : Sound f) : ReadBack f := by
  induction hf with
  | leaf name id x ls reads =>
    intro s k u r hts hu i
    have hlen : u.length = 1 + ls.length := by
      rw [← List.length_map (f := Token.content), hu, Form.lexemes, List.length_cons, Nat.add_comm]
    obtain ⟨c, hc, heq⟩ := exists_element (reads u r hu) s.tokens.length i
    refine ⟨c, hc, ?_⟩
    rw [heq rfl, wholeAt, hts.line, hts.position, hts.right.position, hlen, ← Nat.add_assoc]
    rfl
  | block name id header body reads elements filled ih =>
    intro s k u r hts hu i
    obtain ⟨v, v', rfl, hv, hv'⟩ := List.map_eq_append_iff.mp hu
    obtain ⟨t, w', rfl, ht, hw'⟩ := List.map_eq_cons_iff.mp hv'
    obtain ⟨w, x, rfl, hw, hx⟩ := List.map_eq_append_iff.mp hw'
    obtain ⟨t', y, rfl, ht', hy⟩ := List.map_eq_cons_iff.mp hx
    obtain ⟨a, y, rfl, ha, hy⟩ := List.map_eq_cons_iff.mp hy
    obtain ⟨b, y, rfl, hb, hy⟩ := List.map_eq_cons_iff.mp hy
    obtain rfl : y = [] := by simpa using hy
    have hsplit : v ++ t :: (w ++ t' :: [a, b]) ++ r = v ++ t :: (w ++ t' :: a :: b :: r) := by simp
    rw [hsplit] at hts ⊢
    have hinner := contents_readBack elements ih hts.right.tail hw ht' name 0
    have hhead := reads v (t :: (w ++ t' :: a :: b :: r)) hv (congrArg some ht)
    refine ⟨_, gives_element.mpr ⟨name, id, _, hhead, .inr ⟨_, _, _, ⟨t, rfl, isPunct_of_content ht⟩,
      hinner, endTag_of_content ha hb, rfl⟩⟩, ?_⟩
    have hfilled : (constructsAll s (k + v.length + 1) 0 body).isEmpty = false := by
      obtain ⟨f, fs, rfl⟩ := List.exists_cons_of_ne_nil filled
      obtain ⟨c, hc⟩ := (elements f List.mem_cons_self).constructs s (k + v.length + 1) 0
      rw [constructsAll, hc]
      rfl
    have hstop : s.Tail (k + (v ++ t :: (w ++ t' :: [a, b])).length) r := by
      rw [← hsplit] at hts
      exact hts.right
    have hlen : v.length = header.length := by rw [← hv, List.length_map]
    have hlen' : w.length = (lexemesAll body).length := by rw [← hw, List.length_map]
    have hall : (v ++ t :: (w ++ t' :: [a, b])).length =
        header.length + 1 + (lexemesAll body).length + 1 + 2 := by
      simp only [List.length_append, List.length_cons, List.length_nil, hlen, hlen']
      omega
    rw [if_neg (by simp [hfilled]), hts.line, hts.position, hts.right.position, hstop.position, hall,
      hlen, hlen']
    simp [Form.constructs, constructsAll, Nat.add_assoc]

/-- Sound forms in a row are read back as their constructs. -/
theorem elements_readBack {fs : List Form} (hsound : ∀ f ∈ fs, Sound f) {s : Source} {k : Nat}
    {ts : List Token} (hts : s.Tail k ts) (hu : ts.map Token.content = lexemesAll fs) (i : Nat) :
    elements s.tokens.length i ts = .ok (constructsAll s k i fs) := by
  induction fs generalizing k i ts with
  | nil =>
    obtain rfl : ts = [] := by simpa using hu
    exact elements_iff.mpr (.inl ⟨rfl, rfl⟩)
  | cons f fs ih =>
    obtain ⟨v, w, rfl, hv, hw⟩ := List.map_eq_append_iff.mp hu
    rw [List.forall_mem_cons] at hsound
    obtain ⟨c, hc, hconstruct⟩ := readBack hsound.1 s k v w hts hv i
    have hmore := ih hsound.2 hts.right hw (i + 1)
    refine elements_iff.mpr (.inr ⟨c, w, _, hc, hmore, ?_⟩)
    rw [constructsAll, ← hconstruct, ← hv, List.length_map, hsound.1.weight, List.singleton_append]

end Completeness

section Labels

private theorem Whole.head {name : String} {id : Option String} {whole : Bool} {ts r : List Token} :
    Whole name id whole ts r → ∃ k, Head name id ts k
  | .closed head _ => ⟨_, head⟩
  | .open head _ _ _ => ⟨_, head⟩

/-- A leaf has one label. -/
theorem Sound.leaf_label {l l' : Label} {x : Lexeme} {ls : List Lexeme} (h : Sound (.leaf l x ls))
    (h' : Sound (.leaf l' x ls)) : l = l' := by
  cases h with
  | leaf name id _ _ reads =>
  cases h' with
  | leaf name' id' _ _ reads' =>
    obtain ⟨k, hk⟩ := (reads ((x :: ls).map someToken) [] (content_someTokens _)).head
    obtain ⟨k', hk'⟩ := (reads' ((x :: ls).map someToken) [] (content_someTokens _)).head
    obtain ⟨rfl, rfl⟩ := hk.unique hk'
    rfl

/-- A header has one label. -/
theorem Sound.block_label {l l' : Label} {header : List Lexeme} {o o' c c' : Lexeme}
    {body body' clauses clauses' : List Form} {trail trail' : List Lexeme}
    (h : Sound (.block l header o body c clauses trail))
    (h' : Sound (.block l' header o' body' c' clauses' trail')) : l = l' := by
  cases h with
  | block name id _ _ reads =>
  cases h' with
  | block name' id' _ _ reads' =>
    have hheader := content_someTokens header
    have hhead := reads (header.map someToken) [someToken opening] hheader rfl
    have hhead' := reads' (header.map someToken) [someToken opening] hheader rfl
    obtain ⟨rfl, rfl⟩ := hhead.unique hhead'
    rfl

end Labels

end ModWeave.Markup
