import ModWeave.Proofs.Tree.Eager
import ModWeave.Proofs.Tree.Element
import ModWeave.Proofs.Tree.Form

/-!
Markup documents as a grammar has them: elements, with attributes in their start tags, and with text and further
elements up to end tags of their names. A text is read exactly if its lexemes are those of such elements, and the
tree that is read is given by them.
-/
namespace ModWeave.Markup

/-- The name of an attribute, and its value in quotes. -/
abbrev Attribute := String × String

mutual

inductive Element where
  /-- An element that ends with its start tag. -/
  | closed (name : String) (attributes : List Attribute)
  | filled (name : String) (attributes : List Attribute) (contents : Row)

/-- Text and elements, one behind the other. -/
inductive Row where
  | nil
  | text (text : String) (more : Row)
  | element (first : Element) (more : Row)

end

def Attribute.lexemes (a : Attribute) : List Lexeme := [(.ident, a.1), (.punct, "="), (.str, a.2)]

/-- The lexemes of a start tag up to its end. -/
def startTag (name : String) (attributes : List Attribute) : List Lexeme :=
  (.punct, "<") :: (.ident, name) :: attributes.flatMap Attribute.lexemes

mutual

def Element.lexemes : Element → List Lexeme
  | .closed name attributes => startTag name attributes ++ [(.punct, "/>")]
  | .filled name attributes contents =>
    startTag name attributes ++ (.punct, ">") ::
      (contents.lexemes ++ [(.punct, "</"), (.ident, name), (.punct, ">")])

def Row.lexemes : Row → List Lexeme
  | .nil => []
  | .text x more => (.text, x) :: more.lexemes
  | .element e more => e.lexemes ++ more.lexemes

end

namespace Row

def hasText : Row → Bool
  | nil => false
  | text .. => true
  | element _ more => more.hasText

def elements : Row → List Element
  | nil => []
  | text _ more => more.elements
  | element e more => e :: more.elements

end Row

/-- The value of the last `id`, without its quotes. -/
def lastId (attributes : List Attribute) : Option String :=
  (attributes.filter (·.1 = "id")).getLast?.map fun a => unquoted ⟨.str, a.2, .origin⟩

namespace Element

def name : Element → String
  | closed name _ => name
  | filled name .. => name

def attributes : Element → List Attribute
  | closed _ attributes => attributes
  | filled _ attributes _ => attributes

/-- Whether there are elements in an element and no text beside them. -/
def isContainer : Element → Bool
  | closed .. => false
  | filled _ _ contents => !contents.elements.isEmpty && !contents.hasText

/-- What an element is known by at position `i` among the elements next to it, if no other is known by it. -/
def tag (e : Element) (i : Nat) : String := elementTag e.name (lastId e.attributes) i

end Element

/-- The keys of elements next to each other: each has its tag, or its tag with the least ordinal that frees it. -/
def keysOf (es : List Element) : List String :=
  es.foldl (fun keys e => keys ++ [freed keys (e.tag keys.length)]) []

mutual

/-- The node of an element that stands at token `k`, under its key. -/
def Element.node (s : Source) (k : Nat) (key : String) : Element → Node
  | .closed name attributes =>
    .leaf ⟨key, .element, ⟨k, k + (Element.closed name attributes).lexemes.length⟩, s.lineAt k, none⟩
  | .filled name attributes contents =>
    let e := Element.filled name attributes contents
    let head : ModWeave.Head := ⟨key, .element, ⟨k, k + e.lexemes.length⟩, s.lineAt k, none⟩
    let opening := k + (startTag name attributes).length
    if e.isContainer then
      let nodes := contents.nodes s (opening + 1) (keysOf contents.elements)
      .container head (some ⟨opening, opening + 1 + contents.lexemes.length⟩) nodes
        (keysOf contents.elements).zipIdx
    else .leaf head

/-- The nodes of the elements of a row that stands at token `k`, under their keys. -/
def Row.nodes (s : Source) (k : Nat) (keys : List String) : Row → List Node
  | .nil => []
  | .text _ more => more.nodes s (k + 1) keys
  | .element e more =>
    e.node s k (keys.headD "") :: more.nodes s (k + e.lexemes.length) keys.tail

end

section StartTag

variable {name : String} {id id' : Option String} {ts u r : List Token}

theorem lastId_cons (a : Attribute) (attributes : List Attribute) :
    (lastId (a :: attributes)).or id =
      (lastId attributes).or (if a.1 = "id" then some (unquoted ⟨.str, a.2, .origin⟩) else id) := by
  unfold lastId
  by_cases ha : a.1 = "id"
  · rw [List.filter_cons_of_pos (by simpa using ha), List.getLast?_cons, if_pos ha]
    cases (attributes.filter (·.1 = "id")).getLast? <;> simp
  · rw [List.filter_cons_of_neg (by simpa using ha), if_neg ha]

/-- Attributes are read up to the end of the start tag. -/
theorem gives_attributes {attributes : List Attribute} (hu : u.map Token.content = attributes.flatMap Attribute.lexemes)
    (hend : (startsWith "/>" r || startsWith ">" r) = true) (id : Option String) :
    GivesAny (Markup.attributes id (u ++ r)) ((lastId attributes).or id) r := by
  induction attributes generalizing u id with
  | nil =>
    obtain rfl : u = [] := by simpa using hu
    exact attributes_iff.mpr (.inl ⟨hend, rfl, rfl⟩)
  | cons a attributes ih =>
    obtain ⟨t, u, rfl, hname, hu⟩ := List.map_eq_cons_iff.mp hu
    obtain ⟨sign, u, rfl, hsign, hu⟩ := List.map_eq_cons_iff.mp hu
    obtain ⟨t', u, rfl, hvalue, hu⟩ := List.map_eq_cons_iff.mp hu
    refine attributes_iff.mpr (.inr ⟨a.1, _, ⟨t, gives_expectKind.mpr ⟨rfl, congrArg Prod.fst hname⟩,
      congrArg Prod.snd hname⟩, _, leaves_expectSign.mpr ⟨sign, rfl, isPunct_of_content hsign⟩, a.2, _,
      ⟨t', gives_expectKind.mpr ⟨rfl, congrArg Prod.fst hvalue⟩, congrArg Prod.snd hvalue⟩, ?_⟩)
    rw [lastId_cons]
    exact ih hu _

theorem exists_attributes (h : GivesAny (Markup.attributes id ts) id' r) : ∃ attributes u,
    ts = u ++ r ∧ u.map Token.content = attributes.flatMap Attribute.lexemes ∧
      id' = (lastId attributes).or id := by
  induction hn : ts.length using Nat.strongRecOn generalizing id ts with
  | ind n ih =>
    subst hn
    obtain ⟨-, rfl, rfl⟩ | ⟨x, m, ⟨t, ht, hx⟩, k, hk, y, l, ⟨t', ht', hy⟩, hmore⟩ := attributes_iff.mp h
    · exact ⟨[], [], rfl, rfl, rfl⟩
    · obtain ⟨rfl, hkind⟩ := gives_expectKind.mp ht
      obtain ⟨sign, rfl, hsign⟩ := leaves_expectSign.mp hk
      obtain ⟨rfl, hkind'⟩ := gives_expectKind.mp ht'
      obtain ⟨attributes, u, rfl, hu, rfl⟩ := ih l.length (by simp only [List.length_cons]; omega) hmore rfl
      refine ⟨(x, y) :: attributes, t :: sign :: t' :: u, rfl, ?_, ?_⟩
      · have hname : t.content = (.ident, x) := by rw [Token.content, hkind, hx]
        have hvalue : t'.content = (.str, y) := by rw [Token.content, hkind', hy]
        simp [Attribute.lexemes, hu, hname, hvalue, content_of_isPunct hsign]
      · rw [lastId_cons]

theorem head_of_lexemes {attributes : List Attribute} (hu : u.map Token.content = startTag name attributes)
    (hend : (startsWith "/>" r || startsWith ">" r) = true) : Head name (lastId attributes) (u ++ r) r := by
  obtain ⟨sign, u, rfl, hsign, hu⟩ := List.map_eq_cons_iff.mp hu
  obtain ⟨t, u, rfl, ht, hu⟩ := List.map_eq_cons_iff.mp hu
  have hattributes := gives_attributes hu hend none
  rw [Option.or_none] at hattributes
  exact ⟨_, leaves_expectSign.mpr ⟨sign, rfl, isPunct_of_content hsign⟩, _,
    ⟨t, gives_expectKind.mpr ⟨rfl, congrArg Prod.fst ht⟩, congrArg Prod.snd ht⟩, hattributes⟩

theorem Head.exists_lexemes (h : Head name id ts r) : ∃ attributes u, ts = u ++ r ∧
    u.map Token.content = startTag name attributes ∧ id = lastId attributes := by
  obtain ⟨m, hm, k, ⟨t, ht, rfl⟩, hattributes⟩ := h
  obtain ⟨sign, rfl, hsign⟩ := leaves_expectSign.mp hm
  obtain ⟨rfl, hkind⟩ := gives_expectKind.mp ht
  obtain ⟨attributes, u, rfl, hu, rfl⟩ := exists_attributes hattributes
  refine ⟨attributes, sign :: t :: u, rfl, ?_, Option.or_none⟩
  have hname : t.content = (.ident, t.lexeme) := by rw [Token.content, hkind]
  simp [startTag, hu, hname, content_of_isPunct hsign]

end StartTag

mutual

/-- What is read as an element stands for one. -/
theorem exists_element_of_gives {n i : Nat} {ts q : List Token} {c : Construct}
    (h : Gives (element n i ts) c q) : ∃ (e : Element) (u : List Token), ts = u ++ q ∧
      u.map Token.content = e.lexemes := by
  obtain ⟨name, id, k, hhead, ⟨hsign, -⟩ | ⟨m, inner, l, hsign, hinner, hend, -⟩⟩ := gives_element.mp h
  · obtain ⟨attributes, u, rfl, hu, -⟩ := hhead.exists_lexemes
    obtain ⟨t, rfl, ht⟩ := hsign
    refine ⟨.closed name attributes, u ++ [t], by simp, ?_⟩
    simp [Element.lexemes, hu, content_of_isPunct ht]
  · have hlt : m.length < ts.length := Nat.lt_trans hsign.length_lt hhead.length_lt
    obtain ⟨attributes, u, rfl, hu, -⟩ := hhead.exists_lexemes
    obtain ⟨t, rfl, ht⟩ := hsign
    obtain ⟨x, v, t', rfl, hv, ht'⟩ := exists_row_of_gives hinner
    obtain ⟨b, ⟨w, rfl, hw⟩, w', rfl, hw'⟩ := endTag_iff.mp hend
    refine ⟨.filled name attributes x, u ++ t :: (v ++ [t', w, w']), by simp, ?_⟩
    have hname : w.content = (.ident, name) := by
      rw [Bool.and_eq_true, beq_iff_eq, beq_iff_eq] at hw
      rw [Token.content, hw.1, hw.2]
    simp [Element.lexemes, hu, hv, hname, content_of_isPunct ht, content_of_isPunct ht', content_of_isPunct hw']
termination_by 2 * ts.length

theorem exists_row_of_gives {n i : Nat} {name : String} {ts q : List Token} {inner : Contents}
    (h : Gives (contents n name i ts) inner q) : ∃ (x : Row) (u : List Token) (t : Token), ts = u ++ t :: q ∧
      u.map Token.content = x.lexemes ∧ t.isPunct "</" = true := by
  obtain ⟨⟨t, rfl, ht⟩, -⟩ | ⟨m, more, hfirst, hmore, -⟩ | ⟨c, m, more, hfirst, hmore, -⟩ :=
    gives_contents.mp h
  · exact ⟨.nil, [], t, rfl, rfl, ht⟩
  · have hlt := hfirst.length_lt
    obtain ⟨x, u, t, rfl, hu, ht⟩ := exists_row_of_gives hmore
    obtain ⟨t', rfl, ht'⟩ := hfirst
    refine ⟨.text t'.lexeme x, t' :: u, t, rfl, ?_, ht⟩
    rw [beq_iff_eq] at ht'
    simp [Row.lexemes, hu, Token.content, ht']
  · have hlt := hfirst.length_lt
    obtain ⟨e, u, rfl, hu⟩ := exists_element_of_gives hfirst
    obtain ⟨x, v, t, rfl, hv, ht⟩ := exists_row_of_gives hmore
    refine ⟨.element e x, u ++ v, t, by simp, ?_, ht⟩
    rw [List.map_append, hu, hv, Row.lexemes]
termination_by 2 * ts.length + 1

end

mutual

/-- The construct of an element that stands at token `k`, at position `i` among the elements next to it. -/
def Element.construct (s : Source) (k i : Nat) : Element → Construct
  | .closed name attributes =>
    let e := Element.closed name attributes
    .leaf .element (e.tag i) ⟨k, k + e.lexemes.length⟩ (s.lineAt k) none
  | .filled name attributes contents =>
    let e := Element.filled name attributes contents
    let opening := k + (startTag name attributes).length
    if e.isContainer then
      .block .element (e.tag i) ⟨k, k + e.lexemes.length⟩ (s.lineAt k)
        ⟨opening, opening + 1 + contents.lexemes.length⟩ (contents.constructs s (opening + 1) 0)
    else .leaf .element (e.tag i) ⟨k, k + e.lexemes.length⟩ (s.lineAt k) none

def Row.constructs (s : Source) (k i : Nat) : Row → List Construct
  | .nil => []
  | .text _ more => more.constructs s (k + 1) i
  | .element e more => e.construct s k i :: more.constructs s (k + e.lexemes.length) (i + 1)

end

section Reading

variable {s : Source} {k i : Nat} {u r : List Token}

theorem Row.isEmpty_constructs (s : Source) (k i : Nat) :
    ∀ x : Row, (x.constructs s k i).isEmpty = x.elements.isEmpty
  | .nil => rfl
  | .text _ more => Row.isEmpty_constructs s (k + 1) i more
  | .element .. => rfl

private theorem wholeAt_eq {e : Element} (hts : s.Tail k (u ++ r)) (hu : u.map Token.content = e.lexemes) :
    wholeAt s.tokens.length i e.name (lastId e.attributes) (u ++ r) r =
      .leaf .element (e.tag i) ⟨k, k + e.lexemes.length⟩ (s.lineAt k) none := by
  rw [wholeAt, hts.position, hts.right.position, hts.line, ← hu, List.length_map]
  rfl

mutual

/-- An element is read where its lexemes stand. -/
theorem Element.gives {k : Nat} {u r : List Token} (hts : s.Tail k (u ++ r)) (i : Nat) :
    ∀ e : Element, u.map Token.content = e.lexemes →
      Gives (Markup.element s.tokens.length i (u ++ r)) (e.construct s k i) r
  | .closed name attributes, hu => by
    have hwhole := wholeAt_eq (i := i) hts hu
    obtain ⟨v, w, rfl, hv, hw⟩ := List.map_eq_append_iff.mp hu
    obtain ⟨t, w, rfl, ht, hw⟩ := List.map_eq_cons_iff.mp hw
    obtain rfl : w = [] := by simpa using hw
    have ht := isPunct_of_content ht
    have hhead : Head name (lastId attributes) (v ++ ([t] ++ r)) ([t] ++ r) :=
      head_of_lexemes hv (by simp [startsWith, ht])
    rw [List.append_assoc] at hwhole ⊢
    refine gives_element.mpr ⟨name, _, _, hhead, .inl ⟨⟨t, rfl, ht⟩, ?_⟩⟩
    exact hwhole.symm
  | .filled name attributes contents, hu => by
    have hwhole := wholeAt_eq (i := i) hts hu
    obtain ⟨v, x, rfl, hv, hx⟩ := List.map_eq_append_iff.mp hu
    obtain ⟨t, y, rfl, ht, hy⟩ := List.map_eq_cons_iff.mp hx
    obtain ⟨w, z, rfl, hw, hz⟩ := List.map_eq_append_iff.mp hy
    obtain ⟨t', z, rfl, ht', hz⟩ := List.map_eq_cons_iff.mp hz
    obtain ⟨a, z, rfl, ha, hz⟩ := List.map_eq_cons_iff.mp hz
    obtain ⟨b, z, rfl, hb, hz⟩ := List.map_eq_cons_iff.mp hz
    obtain rfl : z = [] := by simpa using hz
    have ht := isPunct_of_content ht
    have hsplit : v ++ t :: (w ++ t' :: [a, b]) ++ r = v ++ t :: (w ++ t' :: a :: b :: r) := by simp
    have hstop := hts.right.position
    rw [hsplit] at hts hwhole ⊢
    have hhead : Head name (lastId attributes) (v ++ t :: (w ++ t' :: a :: b :: r))
        (t :: (w ++ t' :: a :: b :: r)) := head_of_lexemes hv (by simp [startsWith, ht])
    have hinner := Row.gives hts.right.tail (isPunct_of_content ht') name 0 contents hw
    refine gives_element.mpr ⟨name, _, _, hhead, .inr ⟨_, _, _, ⟨t, rfl, ht⟩, hinner,
      endTag_of_content ha hb, ?_⟩⟩
    rw [Row.isEmpty_constructs, Element.construct]
    have hcontainer : (Element.filled name attributes contents).isContainer =
        !(contents.elements.isEmpty || contents.hasText) := (Bool.not_or _ _).symm
    rw [hcontainer]
    cases contents.elements.isEmpty || contents.hasText with
    | true =>
      rw [if_neg (by decide), if_pos rfl]
      exact hwhole.symm
    | false =>
      rw [Bool.not_false, if_pos rfl, if_neg Bool.false_ne_true, hts.line, hts.position, hts.right.position, hstop, ← hu, ← hv, ← hw]
      simp only [List.length_map]
      rfl

/-- A row is read up to the end tag behind it. -/
theorem Row.gives {k : Nat} {u r : List Token} {t : Token} (hts : s.Tail k (u ++ t :: r))
    (ht : t.isPunct "</" = true) (name : String) (i : Nat) :
    ∀ x : Row, u.map Token.content = x.lexemes →
      Gives (contents s.tokens.length name i (u ++ t :: r)) ⟨k + u.length, x.hasText, x.constructs s k i⟩ r
  | .nil, hu => by
    obtain rfl : u = [] := by simpa [Row.lexemes] using hu
    refine gives_contents.mpr (.inl ⟨⟨t, rfl, ht⟩, ?_⟩)
    rw [hts.position]
    rfl
  | .text text more, hu => by
    obtain ⟨first, u, rfl, hfirst, hu⟩ := List.map_eq_cons_iff.mp hu
    refine gives_contents.mpr (.inr (.inl ⟨_, _, ⟨first, rfl, ?_⟩, Row.gives hts.tail ht name i more hu, ?_⟩))
    · exact beq_iff_eq.mpr (congrArg Prod.fst hfirst)
    · simp [Row.constructs, Row.hasText, Nat.add_comm, Nat.add_left_comm]
  | .element e more, hu => by
    obtain ⟨v, w, rfl, hv, hw⟩ := List.map_eq_append_iff.mp hu
    rw [List.append_assoc] at hts ⊢
    have hmore := Row.gives hts.right ht name (i + 1) more hw
    refine gives_contents.mpr (.inr (.inr ⟨_, _, _, Element.gives hts i e hv, hmore, ?_⟩))
    rw [Row.constructs, ← hv, List.length_map, List.length_append, Nat.add_assoc]
    rfl

end

end Reading

section Rows

variable {s : Source}

/-- A document is read exactly if it is a row of elements. -/
theorem elements_of_lexemes {k i : Nat} {ts : List Token} (hts : s.Tail k ts) :
    ∀ x : Row, x.hasText = false → ts.map Token.content = x.lexemes →
      elements s.tokens.length i ts = .ok (x.constructs s k i)
  | .nil, _, hu => by
    obtain rfl : ts = [] := by simpa [Row.lexemes] using hu
    exact elements_iff.mpr (.inl ⟨rfl, rfl⟩)
  | .element e more, htext, hu => by
    obtain ⟨v, w, rfl, hv, hw⟩ := List.map_eq_append_iff.mp hu
    have hmore := elements_of_lexemes (i := i + 1) hts.right more htext hw
    refine elements_iff.mpr (.inr ⟨_, w, _, e.gives hts i hv, hmore, ?_⟩)
    rw [Row.constructs, ← hv, List.length_map]

theorem exists_row_of_elements {n i : Nat} {ts : List Token} {cs : List Construct} (h : elements n i ts = .ok cs) :
    ∃ x : Row, x.hasText = false ∧ ts.map Token.content = x.lexemes := by
  induction hn : ts.length using Nat.strongRecOn generalizing i ts cs with
  | ind m ih =>
    subst hn
    obtain ⟨rfl, -⟩ | ⟨c, m, more, hc, hmore, -⟩ := elements_iff.mp h
    · exact ⟨.nil, rfl, rfl⟩
    · obtain ⟨x, htext, hx⟩ := ih m.length hc.length_lt hmore rfl
      obtain ⟨e, u, rfl, hu⟩ := exists_element_of_gives hc
      exact ⟨.element e x, htext, by rw [List.map_append, hu, hx, Row.lexemes]⟩

end Rows

section Keys

/-- The keys so far, with those of elements behind them. -/
def keysFrom (keys : List String) (es : List Element) : List String :=
  es.foldl (fun keys e => keys ++ [freed keys (e.tag keys.length)]) keys

theorem keysOf_eq (es : List Element) : keysOf es = keysFrom [] es := rfl

theorem keysFrom_cons (keys : List String) (e : Element) (es : List Element) :
    keysFrom keys (e :: es) = keysFrom (keys ++ [freed keys (e.tag keys.length)]) es := rfl

theorem exists_keysFrom (keys : List String) (es : List Element) :
    ∃ more, keysFrom keys es = keys ++ more ∧ more.length = es.length := by
  induction es generalizing keys with
  | nil => exact ⟨[], (List.append_nil _).symm, rfl⟩
  | cons e es ih =>
    obtain ⟨more, hmore, hlength⟩ := ih (keys ++ [freed keys (e.tag keys.length)])
    exact ⟨_ :: more, by rw [keysFrom_cons, hmore, List.append_assoc]; rfl, by simp [hlength]⟩

@[simp] theorem length_keysOf (es : List Element) : (keysOf es).length = es.length := by
  obtain ⟨keys, hkeys, hlength⟩ := exists_keysFrom [] es
  rw [keysOf_eq, hkeys, List.nil_append, hlength]

/-- No two elements next to each other have one key. -/
theorem nodup_keysFrom {keys : List String} (h : keys.Nodup) (es : List Element) : (keysFrom keys es).Nodup := by
  induction es generalizing keys with
  | nil => exact h
  | cons e es ih =>
    refine ih (List.nodup_append.mpr ⟨h, List.nodup_singleton _, ?_⟩)
    rintro key hkey _ hmem rfl
    exact freed_not_mem keys _ (List.mem_singleton.mp hmem ▸ hkey)

/-- An element's key is its tag, freed from the keys before it. -/
theorem getElem?_keysOf {es : List Element} {i : Nat} {e : Element} (h : es[i]? = some e) :
    (keysOf es)[i]? = some (freed ((keysOf es).take i) (e.tag i)) := by
  obtain ⟨hi, rfl⟩ := List.getElem?_eq_some_iff.mp h
  have hsplit : es = es.take i ++ es[i] :: es.drop (i + 1) := by
    rw [← List.drop_eq_getElem_cons hi, List.take_append_drop]
  have hbefore : (keysOf (es.take i)).length = i := by rw [length_keysOf, List.length_take]; omega
  have hkeys : keysOf es =
      keysFrom (keysOf (es.take i) ++ [freed (keysOf (es.take i)) (es[i].tag i)]) (es.drop (i + 1)) := by
    conv_lhs => rw [hsplit, keysOf, List.foldl_append, List.foldl_cons]
    rw [← keysOf, hbefore]
    rfl
  obtain ⟨more, hmore, -⟩ := exists_keysFrom (keysOf (es.take i) ++ [freed (keysOf (es.take i)) (es[i].tag i)])
    (es.drop (i + 1))
  rw [hkeys, hmore, List.append_assoc, List.getElem?_append_right hbefore.le, hbefore,
    List.take_append_of_le_length hbefore.ge, List.take_of_length_le hbefore.le]
  simp

end Keys

section Nodes

variable {s : Source}

@[simp] theorem Element.signature_node (e : Element) (s : Source) (k : Nat) (key : String) :
    (e.node s k key).signature = key := by
  cases e with
  | closed => rfl
  | filled =>
    rw [Element.node]
    dsimp only
    split <;> rfl

@[simp] theorem Element.kind_node (e : Element) (s : Source) (k : Nat) (key : String) :
    (e.node s k key).kind = .element := by
  cases e with
  | closed => rfl
  | filled =>
    rw [Element.node]
    dsimp only
    split <;> rfl

theorem Element.resign_node (e : Element) (s : Source) (k : Nat) (key key' : String) :
    (e.node s k key).resign key' = e.node s k key' := by
  cases e with
  | closed => rfl
  | filled =>
    rw [Element.node, Element.node]
    dsimp only
    split <;> rfl

/-- Each element of a row has a node, under its key. -/
theorem Row.signatures_nodes (s : Source) : ∀ (x : Row) (k : Nat) (keys : List String),
    keys.length = x.elements.length → (x.nodes s k keys).map Node.signature = keys
  | .nil, _, _, h => (List.eq_nil_of_length_eq_zero h).symm
  | .text _ more, k, keys, h => Row.signatures_nodes s more (k + 1) keys h
  | .element e more, k, key :: keys, h => by
    rw [Row.nodes, List.map_cons, e.signature_node, List.headD_cons, List.tail_cons,
      Row.signatures_nodes s more _ keys (Nat.succ.inj h)]

/-- The children of a block are some nodes under these keys. -/
structure Holds (b : Block) (nodes : List Node) (keys : List String) : Prop where
  children : b.children = ⟨nodes, keys.zipIdx⟩
  indexed : b.children.Indexed
  signatures : b.children.signatures = keys

theorem holds_empty : Holds .empty [] [] := ⟨rfl, ChildMap.indexed_empty, rfl⟩

/-- An element goes behind its siblings, under its tag or under the tag with the least ordinal that frees it. -/
theorem Holds.attach {b : Block} {nodes : List Node} {keys : List String} (h : Holds b nodes keys) (e : Element)
    (k : Nat) (tag : String) : Holds (b.attach (e.node s k tag)) (nodes ++ [e.node s k (freed keys tag)])
      (keys ++ [freed keys tag]) := by
  have htaken (x : String) : b.children.contains x ↔ x ∈ keys := by
    rw [h.indexed.contains_iff, h.signatures]
  have hkey : b.key (e.node s k tag) = (freed keys tag, b) := by
    rw [Block.key, e.kind_node, e.signature_node, ← h.indexed.freeKey_eq_freed fun x _ => htaken x]
    rfl
  have hfree : b.children.contains (e.node s k (freed keys tag)).signature = false := by
    rw [e.signature_node, ← Bool.not_eq_true, htaken]
    exact freed_not_mem keys tag
  obtain ⟨hinsert, hindexed⟩ := h.indexed.insert hfree
  have hattach : (b.attach (e.node s k tag)).children = (b.children.insert (e.node s k (freed keys tag))).2 := by
    simp only [Block.attach, hkey, e.resign_node]
  have hlength : nodes.length = keys.length := by
    rw [← h.signatures, h.children, ChildMap.signatures, List.length_map]
  refine ⟨?_, hattach ▸ hindexed, ?_⟩
  · rw [hattach, hinsert, h.children, e.signature_node]
    simp [List.zipIdx_append, hlength]
  · rw [hattach, hinsert, ChildMap.signatures, List.map_append, ← h.signatures]
    simp [ChildMap.signatures]

mutual

/-- The node of an element's construct is under the element's tag still. -/
theorem Element.node_construct (s : Source) (k i : Nat) : ∀ e : Element,
    (e.construct s k i).node = e.node s k (e.tag i)
  | .closed .. => rfl
  | .filled name attributes contents => by
    rw [Element.construct, Element.node]
    dsimp only
    split
    · have hrow := Row.attachAll_constructs s (k + (startTag name attributes).length + 1) contents holds_empty
      rw [Construct.node]
      simp only [List.length_nil] at hrow
      rw [hrow.children]
      rfl
    · rfl

/-- The elements of a row go behind what is there before them. -/
theorem Row.attachAll_constructs (s : Source) (k : Nat) : ∀ (x : Row) {b : Block} {nodes : List Node}
    {keys : List String}, Holds b nodes keys →
      Holds (attachAll b (x.constructs s k keys.length))
        (nodes ++ x.nodes s k ((keysFrom keys x.elements).drop keys.length)) (keysFrom keys x.elements)
  | .nil, _, _, _, h => by
    simpa [Row.constructs, Row.nodes, Row.elements, keysFrom, attachAll] using h
  | .text _ more, _, _, _, h => Row.attachAll_constructs s (k + 1) more h
  | .element e more, b, nodes, keys, h => by
    have hfirst := h.attach (s := s) e k (e.tag keys.length)
    obtain ⟨others, hkeys, -⟩ := exists_keysFrom (keys ++ [freed keys (e.tag keys.length)]) more.elements
    have hmore := Row.attachAll_constructs s (k + e.lexemes.length) more hfirst
    rw [List.length_append] at hmore
    rw [Row.constructs, attachAll, Element.node_construct s k keys.length e, Row.elements, keysFrom_cons]
    have hnodes : (Row.element e more).nodes s k
        ((keysFrom (keys ++ [freed keys (e.tag keys.length)]) more.elements).drop keys.length) =
        e.node s k (freed keys (e.tag keys.length)) :: more.nodes s (k + e.lexemes.length)
          ((keysFrom (keys ++ [freed keys (e.tag keys.length)]) more.elements).drop (keys.length + 1)) := by
      simp [hkeys, Row.nodes]
    rw [hnodes]
    simpa using hmore

end

end Nodes

/-- The tree of a document. Its elements hang off an unnamed root. -/
def documentTree (s : Source) (document : Row) : Tree :=
  ⟨s, .container ⟨"", .root, ⟨0, s.tokens.length⟩, s.lineAt 0, none⟩ none
    (document.nodes s 0 (keysOf document.elements)) (keysOf document.elements).zipIdx⟩

theorem parse_eq {text : List Char} {s : Source} (h : source text = .ok s) {x : Row} (htext : x.hasText = false)
    (hx : s.lexemes = x.lexemes) : parse text = .ok (documentTree s x) := by
  have htail : s.Tail 0 s.tokens := ⟨rfl, Nat.zero_le _⟩
  have hrow := Row.attachAll_constructs s 0 x holds_empty
  have helements := elements_of_lexemes (i := 0) htail x htext hx
  rw [parse, h]
  refine bind_eq_ok.mpr ⟨_, rfl, bind_eq_ok.mpr ⟨_, helements, ?_⟩⟩
  simp only [List.length_nil] at hrow
  rw [Tree.ofConstructs, hrow.children, htail.line]
  rfl

/-- **A text is read as markup exactly if it is made of elements**, each with an end tag of its own name or none, and
its tree is that of the elements: outside of elements with text beside others or with none inside there is a node for
each, in order and under a key of its own, by its last `id` or by its position. -/
theorem parses_iff_elements {text : List Char} {s : Source} (h : source text = .ok s) :
    ((∃ t, parse text = .ok t) ↔ ∃ document : Row, document.hasText = false ∧ s.lexemes = document.lexemes) ∧
    (∀ document : Row, document.hasText = false → s.lexemes = document.lexemes →
      parse text = .ok (documentTree s document)) ∧
    ∀ (row : Row) (k : Nat),
      (row.nodes s k (keysOf row.elements)).map Node.signature = keysOf row.elements ∧
      (keysOf row.elements).Nodup ∧ (keysOf row.elements).length = row.elements.length ∧
      ∀ i e, row.elements[i]? = some e →
        (keysOf row.elements)[i]? = some (freed ((keysOf row.elements).take i) (e.tag i)) := by
  refine ⟨⟨?_, ?_⟩, fun document => parse_eq h, fun row k => ⟨?_, ?_, length_keysOf _, ?_⟩⟩
  · intro ⟨t, ht⟩
    rw [parse, h] at ht
    obtain ⟨_, hs, ht⟩ := bind_eq_ok.mp ht
    cases hs
    obtain ⟨cs, hcs, -⟩ := bind_eq_ok.mp ht
    exact exists_row_of_elements hcs
  · intro ⟨document, htext, hlexemes⟩
    exact ⟨_, parse_eq h htext hlexemes⟩
  · exact Row.signatures_nodes s row k _ (length_keysOf _)
  · exact nodup_keysFrom List.nodup_nil _
  · intro i e he
    exact getElem?_keysOf he

/-- An `id`, a position and an `id` again give three elements one tag. -/
theorem parses_repeated_ids :
    let rows := [("a", [("id", "'1'")]), ("a", []), ("a", [("id", "'1'")])]
    let contents := rows.foldr (fun a more => Row.element (.closed a.1 a.2) more) .nil
    ∃ s, source "<r><a id='1'/><a/><a id='1'/></r>".toList = .ok s ∧
      parse "<r><a id='1'/><a/><a id='1'/></r>".toList =
        .ok (documentTree s (.element (.filled "r" [] contents) .nil)) ∧
      keysOf contents.elements = ["element:a:1", "element:a:1#1", "element:a:1#2"] ∧
      ∃ t, parse "<r><a id='1'/><a/><a id='1'/></r>".toList = .ok t := by
  intro rows contents
  have hlexemes : (source "<r><a id='1'/><a/><a id='1'/></r>".toList).toOption.map Source.lexemes =
      some (Row.element (.filled "r" [] contents) .nil).lexemes := by decide +kernel
  obtain ⟨s, hs, hlexemes⟩ := Option.map_eq_some_iff.mp hlexemes
  have hs := ok_of_toOption hs
  have hparse := (parses_iff_elements hs).2.1 _ rfl hlexemes
  have hkeys : keysOf contents.elements = ["element:a:1", "element:a:1#1", "element:a:1#2"] := by decide +kernel
  exact ⟨s, hs, hparse, hkeys, (parses_iff_elements hs).1.mpr ⟨_, rfl, hlexemes⟩⟩

end ModWeave.Markup
