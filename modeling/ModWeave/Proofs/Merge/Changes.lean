import ModWeave.Merge.Diff
import ModWeave.Proofs.Lists
import ModWeave.Proofs.Tree.Sameness

/-! What computed changes are made of: a part for each child that the base has, and an addition for each
child that only the mod has. -/
namespace ModWeave

section Additions

/-- Each element of a list with what stands before it and behind it. -/
def splits {α : Type} (before : List α) : List α → List (List α × α × List α)
  | [] => []
  | x :: after => (before, x, after) :: splits (before ++ [x]) after

theorem mem_splits {α : Type} {before xs : List α} {z : List α × α × List α} :
    z ∈ splits before xs ↔ ∃ pre, z.1 = before ++ pre ∧ xs = pre ++ z.2.1 :: z.2.2 := by
  induction xs generalizing before with
  | nil => simp [splits]
  | cons x xs ih =>
    rw [splits, List.mem_cons, ih]
    constructor
    · rintro (rfl | ⟨pre, hpre, rfl⟩)
      · exact ⟨[], by simp, rfl⟩
      · exact ⟨x :: pre, by simp [hpre], rfl⟩
    · rintro ⟨pre, hpre, hxs⟩
      cases pre with
      | nil =>
        obtain ⟨rfl, rfl⟩ := List.cons.inj hxs
        left
        rw [List.append_nil] at hpre
        rw [← hpre]
      | cons y pre =>
        obtain ⟨rfl, rfl⟩ := List.cons.inj hxs
        exact .inr ⟨pre, by simp [hpre], rfl⟩

theorem map_splits {α : Type} (before xs : List α) : (splits before xs).map (·.2.1) = xs := by
  induction xs generalizing before with
  | nil => rfl
  | cons x xs ih => rw [splits, List.map_cons, ih]

/-- The addition of a child of the mod's container, given with its siblings before and behind it. -/
structure AdditionOf (c : Counterparts) (path : List String) (z : List Node × Node × List Node)
    (a : Addition) : Prop where
  signature : a.signature = z.2.1.signature
  parent : a.parent = path
  placed : placement c z.1 z.2.1 z.2.2 = some (a.offset, a.text)

theorem forall₂_of_additions {c : Counterparts} {path : List String} {before nodes : List Node}
    {as : List Addition} (h : additions c path before nodes = some as) :
    List.Forall₂ (AdditionOf c path)
      ((splits before nodes).filter fun z => !c.baseChildren.contains z.2.1.signature) as := by
  induction nodes generalizing before as with
  | nil =>
    cases h
    exact .nil
  | cons child after ih =>
    rw [additions, Option.bind_eq_bind, Option.bind_eq_some_iff] at h
    obtain ⟨more, hmore, h⟩ := h
    rw [splits]
    split at h
    · rename_i hc
      cases h
      rw [List.filter_cons_of_neg (by simp [hc])]
      exact ih hmore
    · rename_i hc
      obtain ⟨⟨offset, text⟩, hplaced, h⟩ := Option.bind_eq_some_iff.mp h
      cases h
      rw [List.filter_cons_of_pos (by simpa using hc)]
      exact .cons ⟨rfl, rfl, hplaced⟩ (ih hmore)

end Additions

section Placement

/-- Whether two children belong to the same lane of their container. -/
def Node.sharesLane (child n : Node) : Bool := n.kind.isClause == child.kind.isClause

/-- The siblings before a child in its lane, the nearest one first. -/
def precedingIn (before : List Node) (child : Node) : List Node := before.reverse.filter child.sharesLane

/-- The nearest sibling before a child, in its lane, that the base has too, as it stands in the base. -/
def anchorOf (children : ChildMap Node) (before : List Node) (child : Node) : Option Node :=
  (precedingIn before child).findSome? fun n => children.get? n.signature

/-- Where the first construct of the child's lane starts in the base, or where the base ends. -/
def frontOf (c : Counterparts) (child : Node) : Nat :=
  match c.baseChildren.nodes.find? child.sharesLane with
  | some first => (first.span c.baseSource).1
  | none => Text.byteLength c.baseSource.text

/-- Where a child is placed, and the text that goes there. -/
inductive Placement (c : Counterparts) (before : List Node) (child : Node) (after : List Node) :
    Nat → List Char → Prop
  /-- Behind a sibling, with the gap before the child. -/
  | behind (anchor previous : Node) (text : List Char)
      (found : anchorOf c.baseChildren before child = some anchor)
      (nearest : (precedingIn before child).head? = some previous)
      (cut : c.modSource.textBetween? (previous.span c.modSource).2 (child.span c.modSource).2 = some text) :
      Placement c before child after (anchor.span c.baseSource).2 text
  /-- At the start of its lane, with the gap before the child. -/
  | opening (offset gap : Nat) (text : List Char) (none : anchorOf c.baseChildren before child = none)
      (start : laneStart c.baseSource c.base child.kind.isClause = some offset)
      (nearest : ((precedingIn before child).head?.map fun n => (n.span c.modSource).2).or
        (laneStart c.modSource c.mod child.kind.isClause) = some gap)
      (cut : c.modSource.textBetween? gap (child.span c.modSource).2 = some text) :
      Placement c before child after offset text
  /-- At the start of its lane, where the mod's container has no such start. -/
  | bare (offset : Nat) (text : List Char) (none : anchorOf c.baseChildren before child = none)
      (start : laneStart c.baseSource c.base child.kind.isClause = some offset)
      (nothing : laneStart c.modSource c.mod child.kind.isClause = .none)
      (cut : child.text? c.modSource = some text) : Placement c before child after offset ('\n' :: text)
  /-- Before the first construct, with the gap behind the child. -/
  | before (next : Node) (text : List Char) (none : anchorOf c.baseChildren before child = none)
      (start : laneStart c.baseSource c.base child.kind.isClause = .none)
      (nearest : after.find? child.sharesLane = some next)
      (cut : c.modSource.textBetween? (child.span c.modSource).1 (next.span c.modSource).1 = some text) :
      Placement c before child after (frontOf c child) text
  /-- Before the first construct, where nothing is behind the child. -/
  | last (text : List Char) (none : anchorOf c.baseChildren before child = none)
      (start : laneStart c.baseSource c.base child.kind.isClause = .none)
      (nearest : after.find? child.sharesLane = .none) (cut : child.text? c.modSource = some text) :
      Placement c before child after (frontOf c child) (text ++ ['\n'])

/-- The slot of a child: behind the nearest sibling that the base has too, or where its lane starts. -/
def slotOf (c : Counterparts) (before : List Node) (child : Node) : Option Nat :=
  match anchorOf c.baseChildren before child with
  | some anchor => some (anchor.span c.baseSource).2
  | none => laneStart c.baseSource c.base child.kind.isClause

/-- Where the gap before a child starts. -/
def gapStart (c : Counterparts) (before : List Node) (child : Node) : Option Nat :=
  match (precedingIn before child).head? with
  | some previous => some (previous.span c.modSource).2
  | none => laneStart c.modSource c.mod child.kind.isClause

/-- A child before the first construct, with the gap behind it. -/
def placedInFront (c : Counterparts) (child : Node) (after : List Node) : Option (Nat × List Char) :=
  match after.find? child.sharesLane with
  | some next => (c.modSource.textBetween? (child.span c.modSource).1 (next.span c.modSource).1).map
      (frontOf c child, ·)
  | none => (child.text? c.modSource).map fun text => (frontOf c child, text ++ ['\n'])

/-- A child in a slot, with the gap before it. -/
def placedIn (c : Counterparts) (child : Node) (after : List Node) :
    Option Nat → Option Nat → Option (Nat × List Char)
  | some offset, some gap => (c.modSource.textBetween? gap (child.span c.modSource).2).map (offset, ·)
  | some offset, none => (child.text? c.modSource).map fun text => (offset, '\n' :: text)
  | none, _ => placedInFront c child after

theorem placement_eq (c : Counterparts) (before : List Node) (child : Node) (after : List Node) :
    placement c before child after = placedIn c child after (slotOf c before child) (gapStart c before child) :=
  rfl

theorem placement_cases {c : Counterparts} {before after : List Node} {child : Node} {offset : Nat}
    {text : List Char} (h : placement c before child after = some (offset, text)) :
    Placement c before child after offset text := by
  rw [placement_eq] at h
  cases hanchor : anchorOf c.baseChildren before child with
  | some anchor =>
    obtain ⟨previous, hprevious⟩ : ∃ previous, (precedingIn before child).head? = some previous := by
      cases hp : precedingIn before child with
      | nil => simp [anchorOf, hp] at hanchor
      | cons previous rest => exact ⟨previous, rfl⟩
    rw [slotOf, hanchor, gapStart, hprevious] at h
    obtain ⟨text, hcut, heq⟩ := Option.map_eq_some_iff.mp h
    cases heq
    exact .behind anchor previous _ hanchor hprevious hcut
  | none =>
    rw [slotOf, hanchor] at h
    cases hstart : laneStart c.baseSource c.base child.kind.isClause with
    | some start =>
      rw [hstart] at h
      cases hprevious : (precedingIn before child).head? with
      | some previous =>
        rw [gapStart, hprevious] at h
        obtain ⟨text, hcut, heq⟩ := Option.map_eq_some_iff.mp h
        cases heq
        exact .opening _ _ _ hanchor hstart (by rw [hprevious]; rfl) hcut
      | none =>
        cases hgap : laneStart c.modSource c.mod child.kind.isClause with
        | some gap =>
          rw [gapStart, hprevious, hgap] at h
          obtain ⟨text, hcut, heq⟩ := Option.map_eq_some_iff.mp h
          cases heq
          exact .opening _ gap _ hanchor hstart (by rw [hprevious, hgap]; rfl) hcut
        | none =>
          rw [gapStart, hprevious, hgap] at h
          obtain ⟨text, hcut, heq⟩ := Option.map_eq_some_iff.mp h
          cases heq
          exact .bare _ _ hanchor hstart hgap hcut
    | none =>
      rw [hstart, placedIn, placedInFront] at h
      cases hnext : after.find? child.sharesLane with
      | some next =>
        rw [hnext] at h
        obtain ⟨text, hcut, heq⟩ := Option.map_eq_some_iff.mp h
        cases heq
        exact .before next _ hanchor hstart hnext hcut
      | none =>
        rw [hnext] at h
        obtain ⟨text, hcut, heq⟩ := Option.map_eq_some_iff.mp h
        cases heq
        exact .last _ hanchor hstart hnext hcut

end Placement

/-- Containers with the same header and different content: their children are compared one by one. -/
structure DifferInside (s t : Source) (a b : Node) : Prop where
  content : sameContent s t a b = false
  base : a.isContainer = true
  mod : b.isContainer = true
  header : sameHeader s t a b = true

section Parts

variable (names : SourceNames) (s t : Source)

/-- The part of the changes that comes from one child of the base. `Q` tells what is known of the
changes inside a child that is looked into. -/
inductive ChildPart (Q : List String → Node → Node → Changes → Prop) (path : List String)
    (others : ChildMap Node) (n : Node) : Changes → Prop
  | removed (absent : others.get? n.signature = none) :
      ChildPart Q path others n (conflictOf names s t (path ++ [n.signature]) n none)
  | same (twin : Node) (found : others.get? n.signature = some twin) (same : sameContent s t n twin) :
      ChildPart Q path others n .none
  | modified (twin : Node) (found : others.get? n.signature = some twin)
      (differ : sameContent s t n twin = false) (whole : ¬ DifferInside s t n twin) :
      ChildPart Q path others n (conflictOf names s t (path ++ [n.signature]) n (some twin))
  | inside (twin : Node) (part : Changes) (found : others.get? n.signature = some twin)
      (differ : DifferInside s t n twin) (known : Q (path ++ [n.signature]) n twin part) :
      ChildPart Q path others n part

variable {names s t}

theorem diffChildren_cons {path : List String} {child : Node} {rest : List Node}
    {others : ChildMap Node} : diffChildren names s t path (child :: rest) others =
      (match others.get? child.signature with
        | none => some (conflictOf names s t (path ++ [child.signature]) child none)
        | some twin =>
          if sameContent s t child twin then some .none
          else if child.isContainer && twin.isContainer && sameHeader s t child twin then
            diffInside names s t (path ++ [child.signature]) child twin
          else some (conflictOf names s t (path ++ [child.signature]) child (some twin))).bind
        fun here => (diffChildren names s t path rest others).bind fun more => some (here ++ more) := by
  rw [diffChildren]
  cases others.get? child.signature with
  | none => rfl
  | some twin =>
    dsimp only
    split
    · rfl
    · split <;> rfl

private theorem childParts_of_diffChildren {path : List String} {nodes : List Node}
    {others : ChildMap Node} {c : Changes} (h : diffChildren names s t path nodes others = some c) :
    ∃ parts, List.Forall₂ (ChildPart names s t
        (fun path a b part => diffInside names s t path a b = some part) path others) nodes parts ∧
      c = ⟨parts.flatMap Changes.conflicts, parts.flatMap Changes.additions⟩ := by
  induction nodes generalizing c with
  | nil =>
    rw [diffChildren] at h
    cases h
    exact ⟨[], .nil, rfl⟩
  | cons child rest ih =>
    rw [diffChildren_cons, Option.bind_eq_some_iff] at h
    obtain ⟨here, hhere, h⟩ := h
    obtain ⟨more, hmore, h⟩ := Option.bind_eq_some_iff.mp h
    cases h
    obtain ⟨parts, hparts, rfl⟩ := ih hmore
    refine ⟨here :: parts, .cons ?_ hparts, by rw [List.flatMap_cons, List.flatMap_cons]; rfl⟩
    split at hhere
    · rename_i hget
      cases hhere
      exact .removed hget
    · rename_i twin hget
      split at hhere
      · rename_i hsame
        cases hhere
        exact .same twin hget hsame
      · rename_i hsame
        have hdiffer : sameContent s t child twin = false := by simpa using hsame
        split at hhere
        · rename_i hopen
          simp only [Bool.and_eq_true] at hopen
          exact .inside twin here hget ⟨hdiffer, hopen.1.1, hopen.1.2, hopen.2⟩ hhere
        · rename_i hopen
          cases hhere
          refine .modified twin hget hdiffer fun hd => hopen ?_
          simp [hd.base, hd.mod, hd.header]

/-- More may be known of what is looked into. -/
theorem ChildPart.imp {Q Q' : List String → Node → Node → Changes → Prop} {path : List String}
    {others : ChildMap Node} {n : Node} {part : Changes}
    (hQ : ∀ twin part, DifferInside s t n twin → Q (path ++ [n.signature]) n twin part →
      Q' (path ++ [n.signature]) n twin part)
    (h : ChildPart names s t Q path others n part) : ChildPart names s t Q' path others n part := by
  cases h with
  | removed absent => exact .removed absent
  | same twin found same => exact .same twin found same
  | modified twin found differ whole => exact .modified twin found differ whole
  | inside twin part found differ known => exact .inside twin part found differ (hQ twin part differ known)

/-- What holds of the changes in containers whenever it holds of those in the children that are looked
into holds of all changes. -/
theorem diffInside_induction {Q : List String → Node → Node → Changes → Prop}
    (step : ∀ (path : List String) (h h' : Head) (b b' : Option Braces) (ns ns' : List Node)
      (index index' : List (String × Nat)) (parts : List Changes) (as : List Addition),
      List.Forall₂ (ChildPart names s t Q path ⟨ns', index'⟩) ns parts →
      List.Forall₂ (AdditionOf ⟨s, t, .container h b ns index, .container h' b' ns' index',
        ⟨ns, index⟩⟩ path) ((splits [] ns').filter fun z =>
          !(ChildMap.mk ns index).contains z.2.1.signature) as →
      Q path (.container h b ns index) (.container h' b' ns' index')
        ⟨parts.flatMap Changes.conflicts, parts.flatMap Changes.additions ++ as⟩)
    {path : List String} {x y : Node} {c : Changes} (hx : x.isContainer) (hy : y.isContainer)
    (hc : diffInside names s t path x y = some c) : Q path x y c := by
  induction hz : sizeOf x using Nat.strongRecOn generalizing path x y c with
  | ind z ih =>
    subst hz
    cases x with
    | leaf => cases hx
    | container h b ns index =>
    cases y with
    | leaf => cases hy
    | container h' b' ns' index' =>
      rw [diffInside, Option.bind_eq_bind, Option.bind_eq_some_iff] at hc
      obtain ⟨shared, hshared, hc⟩ := hc
      obtain ⟨as, has, hc⟩ := Option.bind_eq_some_iff.mp hc
      cases hc
      obtain ⟨parts, hparts, rfl⟩ := childParts_of_diffChildren hshared
      have hstep : List.Forall₂ (ChildPart names s t Q path ⟨ns', index'⟩) ns parts := by
        refine forall₂_imp_of_mem hparts fun n hn part hpart => hpart.imp fun twin part hd hc => ?_
        refine ih (sizeOf n) ?_ hd.base hd.mod hc rfl
        have := List.sizeOf_lt_of_mem hn
        simp only [Node.container.sizeOf_spec]
        omega
      have := step path h h' b b' ns ns' index index' parts as hstep (forall₂_of_additions has)
      rwa [← List.append_nil (parts.flatMap Changes.conflicts)] at this

end Parts

/-- Every record of a comparison goes by the names of the comparison. -/
theorem names_of_mem_diff {names : SourceNames} {base mod : Tree} {c : Changes}
    (h : diff names base mod = some c) : ∀ r ∈ c.conflicts, r.names = names := by
  rw [diff] at h
  cases hbase : base.root with
  | leaf =>
    rw [hbase, diffInside] at h
    · cases h
      exact List.forall_mem_nil _
    · simp
  | container =>
    cases hmod : mod.root with
    | leaf =>
      rw [hbase, hmod, diffInside] at h
      · cases h
        exact List.forall_mem_nil _
      · simp
    | container =>
      refine diffInside_induction (Q := fun _ _ _ c => ∀ r ∈ c.conflicts, r.names = names) ?_
        (by rw [hbase]; rfl) (by rw [hmod]; rfl) h
      intro path _ _ _ _ _ _ _ _ parts _ hparts _ r hr
      obtain ⟨part, hpart, hr⟩ := List.mem_flatMap.1 hr
      obtain ⟨n, -, hpart⟩ := exists_of_forall₂_right hparts hpart
      cases hpart with
      | removed => exact List.mem_singleton.1 hr ▸ rfl
      | same => cases hr
      | modified => exact List.mem_singleton.1 hr ▸ rfl
      | inside _ _ _ _ known => exact known r hr

end ModWeave
