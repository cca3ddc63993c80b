import ModWeave.Tree.Node

/-! Constructs as they are read, and the signatures that tell siblings apart. -/
namespace ModWeave

/-- A construct with the tag its signature is made from. Siblings may share a tag. -/
inductive Construct where
  | leaf (kind : NodeKind) (tag : String) (tokens : Extent) (line : Nat) (firstArg : Option String)
  | block (kind : NodeKind) (tag : String) (tokens : Extent) (line : Nat) (braces : Braces)
      (body : List Construct)

/-- What happens when a tag occurs again among siblings. -/
inductive Repetition where
  /-- The later construct replaces the earlier one. -/
  | replaces
  /-- Both are kept, told apart by their first argument. -/
  | byArgument
  /-- Both are kept, told apart by their position. -/
  | byPosition
  /-- Both are kept, the later one under an ordinal. -/
  | byOrdinal
deriving DecidableEq, Repr

def NodeKind.repetition : NodeKind → Repetition
  | .funCall => .byArgument
  | .conditional | .elseIf => .byPosition
  | .element => .byOrdinal
  | _ => .replaces

/-- The children of a block so far, and the tags found to repeat in it. -/
structure Block where
  children : ChildMap Node
  repeated : List String

namespace Block

def empty : Block := ⟨.empty, []⟩

/-- Moves the child under `tag` to `tag:mark`, or to the first free ordinal of that, and remembers
that the tag repeats. -/
def retag (b : Block) (tag mark : String) : Block :=
  let key := b.children.freeKey (tag ++ ":" ++ mark)
  ⟨(b.children.rekey tag key).getD b.children, b.repeated ++ [tag]⟩

/-- The key of a construct that may repeat. The first of its tag keeps the plain tag until a second
comes. From then on every construct of the tag is marked, by `mark` or else by how many signatures
start with the tag already; the first one is marked after the fact, by its own argument or by `0`. -/
def markedKey (b : Block) (tag : String) (mark : Option String)
    (earlierMark : Node → Option String) : String × Block :=
  if b.repeated.contains tag then
    (tag ++ ":" ++ mark.getD (toString (b.children.countPrefixed (tag ++ ":"))), b)
  else match b.children.get? tag with
    | none => (tag, b)
    | some earlier => (tag ++ ":" ++ mark.getD "1", b.retag tag ((earlierMark earlier).getD "0"))

/-- The signature a node gets among its siblings. -/
def key (b : Block) (node : Node) : String × Block :=
  match node.kind.repetition with
  | .replaces => (node.signature, b)
  | .byOrdinal => (b.children.freeKey node.signature, b)
  | .byArgument =>
    let (key, b) := b.markedKey node.signature node.head.firstArg (·.head.firstArg)
    (b.children.freeKey key, b)
  | .byPosition =>
    let (key, b) := b.markedKey node.signature none (fun _ => none)
    (b.children.freeKey key, b)

/-- Adds a node, whose signature is its tag still, to the children. -/
def attach (b : Block) (node : Node) : Block :=
  let (key, b) := b.key node
  { b with children := (b.children.insert (node.resign key)).2 }

end Block

mutual

/-- The node of a construct, still under its tag. -/
def Construct.node : Construct → Node
  | .leaf kind tag tokens line firstArg => .leaf ⟨tag, kind, tokens, line, firstArg⟩
  | .block kind tag tokens line braces body =>
    let b := attachAll .empty body
    .container ⟨tag, kind, tokens, line, none⟩ (some braces) b.children.nodes b.children.index

/-- Adds the nodes of constructs in order. -/
def attachAll (b : Block) : List Construct → Block
  | [] => b
  | c :: rest => attachAll (b.attach c.node) rest

end

/-- The tree of a source's top-level constructs. -/
def Tree.ofConstructs (s : Source) (constructs : List Construct) : Tree :=
  let b := attachAll .empty constructs
  let line := (s.tokens.head?.map (·.place.line)).getD 1
  ⟨s, .container ⟨"", .root, ⟨0, s.tokens.length⟩, line, none⟩ none b.children.nodes
    b.children.index⟩

end ModWeave
