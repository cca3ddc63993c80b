import ModWeave.Merge.Conflict

/-! What a mod changes in a base: conflicts at the shallowest nodes that differ, and additions, which
are never in conflict. -/
namespace ModWeave

/-- Text that only the mod has, and where it goes. -/
structure Addition where
  signature : String
  parent : List String
  /-- Byte offset in the base text. -/
  offset : Nat
  text : List Char
deriving DecidableEq, Repr

structure Changes where
  conflicts : List Conflict
  additions : List Addition

namespace Changes

def none : Changes := ⟨[], []⟩

def append (a b : Changes) : Changes := ⟨a.conflicts ++ b.conflicts, a.additions ++ b.additions⟩

instance : Append Changes := ⟨append⟩

def isEmpty (c : Changes) : Bool := c.conflicts.isEmpty && c.additions.isEmpty

def unresolved (c : Changes) : List Conflict := c.conflicts.filter (!·.isResolved)

end Changes

/-- Offset behind the token that a lane of a container opens with: the opening brace for statements,
the closing one for clauses. The root has no such token. -/
def laneStart (s : Source) (container : Node) (clause : Bool) : Option Nat :=
  container.braces?.map fun b =>
    (s.byteRange (if clause then ⟨b.closing, b.closing + 1⟩ else ⟨b.opening, b.opening + 1⟩)).2

/-- One container on both sides of a comparison. -/
structure Counterparts where
  baseSource : Source
  modSource : Source
  base : Node
  mod : Node
  baseChildren : ChildMap Node

/-- Where a child of the mod's container goes in the base text, and the text that goes there.

Statements and clauses are placed apart, so that no clause gets into a body and no statement between
clauses. The child goes behind the nearest sibling before it that the base has too, else to the start
of its lane, else before the first construct of the base. The gap before it comes along; fails when
that gap ends before it starts. -/
def placement (c : Counterparts) (before : List Node) (child : Node) (after : List Node) :
    Option (Nat × List Char) :=
  let clause := child.kind.isClause
  let sameLane (n : Node) : Bool := n.kind.isClause == clause
  let span := child.span c.modSource
  let preceding := before.reverse.filter sameLane
  let gapStart := match preceding.head? with
    | some previous => some (previous.span c.modSource).2
    | none => laneStart c.modSource c.mod clause
  let offset := match preceding.findSome? (fun n => c.baseChildren.get? n.signature) with
    | some anchor => some (anchor.span c.baseSource).2
    | none => laneStart c.baseSource c.base clause
  match offset, gapStart with
  | some offset, some gap => (c.modSource.textBetween? gap span.2).map (offset, ·)
  | some offset, none => (child.text? c.modSource).map fun text => (offset, '\n' :: text)
  | none, _ =>
    let offset := match c.baseChildren.nodes.find? sameLane with
      | some first => (first.span c.baseSource).1
      | none => Text.byteLength c.baseSource.text
    match after.find? sameLane with
    | some next => (c.modSource.textBetween? span.1 (next.span c.modSource).1).map (offset, ·)
    | none => (child.text? c.modSource).map fun text => (offset, text ++ ['\n'])

/-- Children of the mod's container that the base lacks, given those before them. -/
def additions (c : Counterparts) (path : List String) (before : List Node) :
    List Node → Option (List Addition)
  | [] => some []
  | child :: after => do
    let more ← additions c path (before ++ [child]) after
    if c.baseChildren.contains child.signature then return more
    let (offset, text) ← placement c before child after
    return ⟨child.signature, path, offset, text⟩ :: more

section

variable (names : SourceNames) (bs ms : Source)

/-- The conflict of one child, which the mod has as `twin` or has not. -/
def conflictOf (path : List String) (child : Node) (twin : Option Node) : Changes :=
  ⟨[⟨names, child.signature, path, ⟨bs, child⟩, twin.map (⟨ms, ·⟩), none⟩], []⟩

mutual

/-- Changes inside a container. Two leaves, or a leaf and a container, are not looked into. -/
def diffInside (path : List String) : Node → Node → Option Changes
  | .container h braces nodes index, mod@(.container _ _ modNodes modIndex) => do
    let shared ← diffChildren path nodes ⟨modNodes, modIndex⟩
    let added ← additions ⟨bs, ms, .container h braces nodes index, mod, ⟨nodes, index⟩⟩ path []
      modNodes
    return shared ++ ⟨[], added⟩
  | _, _ => some .none

/-- Changes of the children that the base has. A container whose header agrees is looked into, so
that a conflict is found once, at the shallowest node that differs. -/
def diffChildren (path : List String) : List Node → ChildMap Node → Option Changes
  | [], _ => some .none
  | child :: rest, others => do
    let path' := path ++ [child.signature]
    let here ← match others.get? child.signature with
      | none => some (conflictOf names bs ms path' child none)
      | some twin =>
        if sameContent bs ms child twin then some .none
        else if child.isContainer && twin.isContainer && sameHeader bs ms child twin then
          diffInside path' child twin
        else some (conflictOf names bs ms path' child (some twin))
    return here ++ (← diffChildren path rest others)

end

end

/-- What `mod` changes in `base`. Fails when an addition's gap cannot be read, which happens when a
construct before it is defined again further down. -/
def diff (names : SourceNames) (base mod : Tree) : Option Changes :=
  diffInside names base.source mod.source [] base.root mod.root

end ModWeave
