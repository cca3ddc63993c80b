import ModWeave.Proofs.Token.Reads
import ModWeave.Tree.Construct

/-! Forms: what a text says, apart from where it says it. A form knows its lexemes, and from the place
where these stand in a source it knows the construct that is read there. -/
namespace ModWeave

/-- What a construct is known by before it is told apart from its siblings. The tag may depend on its
position among them. -/
structure Label where
  kind : NodeKind
  tag : Nat → String
  firstArg : Option String

inductive Form where
  /-- A lexeme that makes no construct. -/
  | stray (x : Lexeme)
  | leaf (label : Label) (first : Lexeme) (more : List Lexeme)
  /-- The header ends before the opening lexeme, the body before the closing one; `trail` is what is
  left behind the clauses. -/
  | block (label : Label) (header : List Lexeme) (opening : Lexeme) (body : List Form)
      (closing : Lexeme) (clauses : List Form) (trail : List Lexeme)

mutual

def Form.lexemes : Form → List Lexeme
  | .stray x => [x]
  | .leaf _ x ls => x :: ls
  | .block _ header opening body closing clauses trail =>
    header ++ opening :: (lexemesAll body ++ closing :: (lexemesAll clauses ++ trail))

def lexemesAll : List Form → List Lexeme
  | [] => []
  | f :: fs => f.lexemes ++ lexemesAll fs

end

namespace Form

/-- The label of a form. A block has no first argument. -/
def label? : Form → Option Label
  | stray _ => none
  | leaf label _ _ => some label
  | block label .. => some { label with firstArg := none }

def isSolid (f : Form) : Bool := f.label?.isSome

/-- How many positions among its siblings a form takes up. -/
def weight (f : Form) : Nat := if f.isSolid then 1 else 0

def isClause (f : Form) : Bool := f.label?.any (·.kind.isClause)

theorem isSolid_of_isClause {f : Form} (h : f.isClause = true) : f.isSolid = true := by
  cases f with
  | stray => cases h
  | leaf | block => rfl

end Form

/-- The forms that make constructs. -/
abbrev solids (fs : List Form) : List Form := fs.filter Form.isSolid

def labelsOf (fs : List Form) : List Label := fs.filterMap Form.label?

/-- Line of token `i`. -/
def Source.lineAt (s : Source) (i : Nat) : Nat := (s.tokens[i]?.map (·.place.line)).getD 1

/-- The tokens of the source from token `i` on. -/
structure Source.Tail (s : Source) (i : Nat) (ts : List Token) : Prop where
  drop : s.tokens.drop i = ts
  le : i ≤ s.tokens.length

namespace Source.Tail

variable {s : Source} {i : Nat} {ts u r : List Token} {t : Token}

theorem position (h : s.Tail i ts) : s.tokens.length - ts.length = i := by
  have := h.le
  rw [← h.drop, List.length_drop]
  omega

theorem line (h : s.Tail i ts) : (ts.head?.map (·.place.line)).getD 1 = s.lineAt i := by
  rw [← h.drop, List.head?_drop]
  rfl

theorem right (h : s.Tail i (u ++ r)) : s.Tail (i + u.length) r := by
  refine ⟨by rw [← List.drop_drop, h.drop, List.drop_left], ?_⟩
  have hlen := congrArg List.length h.drop
  have := h.le
  rw [List.length_drop, List.length_append] at hlen
  omega

theorem tail (h : s.Tail i (t :: r)) : s.Tail (i + 1) r := right (u := [t]) h

theorem lexeme (h : s.Tail i (t :: r)) : s.lexemes[i]? = some t.content := by
  have ht : s.tokens[i]? = some t := by
    rw [← List.head?_drop, h.drop]
    rfl
  rw [Source.lexemes, List.getElem?_map, ht, Option.map_some]

end Source.Tail

mutual

/-- The construct of a form that stands at token `i`, as the `j`-th among its siblings. -/
def Form.constructs (s : Source) (i j : Nat) : Form → List Construct
  | .stray _ => []
  | .leaf label _ ls =>
    [.leaf label.kind (label.tag j) ⟨i, i + 1 + ls.length⟩ (s.lineAt i) label.firstArg]
  | .block label header _ body _ clauses trail =>
    let opening := i + header.length
    let closing := opening + 1 + (lexemesAll body).length
    let stop := closing + 1 + (lexemesAll clauses).length + trail.length
    [.block label.kind (label.tag j) ⟨i, stop⟩ (s.lineAt i) ⟨opening, closing⟩
      (constructsAll s (opening + 1) 0 body ++
        constructsAll s (closing + 1) (labelsOf body).length clauses)]

/-- The constructs of forms one behind the other. -/
def constructsAll (s : Source) (i j : Nat) : List Form → List Construct
  | [] => []
  | f :: fs => f.constructs s i j ++ constructsAll s (i + f.lexemes.length) (j + f.weight) fs

end

/-- Whether a form is an `else` without `if`. -/
def Form.isElse (f : Form) : Bool := f.label?.any (·.kind == .otherwise)

/-- Whether nothing follows an `else`. -/
def elseLast : List Form → Bool
  | [] => true
  | f :: fs => (!f.isElse || fs.isEmpty) && elseLast fs

mutual

/-- Whether no clause follows an `else`, at any depth. -/
def Form.ordered : Form → Bool
  | .stray _ | .leaf .. => true
  | .block _ _ _ body _ clauses _ => orderedAll body && orderedAll clauses && elseLast clauses

def orderedAll : List Form → Bool
  | [] => true
  | f :: fs => f.ordered && orderedAll fs

end

section

variable {fs gs : List Form} {f : Form}

@[simp] theorem lexemesAll_nil : lexemesAll [] = [] := rfl

@[simp] theorem lexemesAll_cons (f : Form) (fs : List Form) :
    lexemesAll (f :: fs) = f.lexemes ++ lexemesAll fs := rfl

@[simp] theorem lexemesAll_append (fs gs : List Form) :
    lexemesAll (fs ++ gs) = lexemesAll fs ++ lexemesAll gs := by
  induction fs with
  | nil => rfl
  | cons f fs ih => rw [List.cons_append, lexemesAll_cons, lexemesAll_cons, ih, List.append_assoc]

@[simp] theorem labelsOf_nil : labelsOf [] = [] := rfl

@[simp] theorem labelsOf_append (fs gs : List Form) :
    labelsOf (fs ++ gs) = labelsOf fs ++ labelsOf gs := List.filterMap_append

theorem labelsOf_cons (f : Form) (fs : List Form) :
    labelsOf (f :: fs) = f.label?.toList ++ labelsOf fs := by
  unfold labelsOf
  rw [List.filterMap_cons]
  cases f.label? <;> rfl

theorem length_label? (f : Form) : f.label?.toList.length = f.weight := by
  unfold Form.weight Form.isSolid
  cases f.label? <;> rfl

theorem Form.length_pos (f : Form) : 0 < f.lexemes.length := by
  cases f with
  | stray x => exact Nat.one_pos
  | leaf label x ls => exact Nat.succ_pos _
  | block label header opening body closing clauses trail =>
    simp only [Form.lexemes, List.length_append, List.length_cons]
    omega

theorem constructsAll_append (s : Source) (i j : Nat) (fs gs : List Form) :
    constructsAll s i j (fs ++ gs) = constructsAll s i j fs ++
      constructsAll s (i + (lexemesAll fs).length) (j + (labelsOf fs).length) gs := by
  induction fs generalizing i j with
  | nil => rfl
  | cons f fs ih =>
    simp only [List.cons_append, constructsAll, ih, lexemesAll_cons, labelsOf_cons,
      List.length_append, length_label?, List.append_assoc, Nat.add_assoc]

theorem solids_append (fs gs : List Form) : solids (fs ++ gs) = solids fs ++ solids gs := List.filter_append ..

theorem solids_cons_of_isSolid (hf : f.isSolid = true) (fs : List Form) : solids (f :: fs) = f :: solids fs :=
  List.filter_cons_of_pos hf

theorem labelsOf_solids (fs : List Form) : labelsOf (solids fs) = labelsOf fs := by
  unfold labelsOf
  rw [List.filterMap_filter]
  congr 1
  funext f
  unfold Form.isSolid
  cases f.label? <;> rfl

theorem orderedAll_append (fs gs : List Form) :
    orderedAll (fs ++ gs) = (orderedAll fs && orderedAll gs) := by
  induction fs with
  | nil => rfl
  | cons f fs ih => rw [List.cons_append, orderedAll, orderedAll, ih, Bool.and_assoc]

theorem orderedAll_iff {fs : List Form} : orderedAll fs = true ↔ ∀ f ∈ fs, f.ordered = true := by
  induction fs with
  | nil => simp [orderedAll]
  | cons f fs ih => rw [orderedAll, Bool.and_eq_true, ih, List.forall_mem_cons]

end

end ModWeave
