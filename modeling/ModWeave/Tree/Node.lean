import ModWeave.Token.Basic
import ModWeave.Tree.Children

/-! Trees of nodes, each known by a signature that is unique among its siblings. -/
namespace ModWeave

inductive NodeKind where
  | root
  | importDecl
  | exportDecl
  | sub
  | funBlock
  | variableDecl
  | externDecl
  | macroCall
  | directive
  | useDecl
  | funCall
  | methodReference
  | conditional
  | elseIf
  | otherwise
  | element
deriving DecidableEq, Repr

namespace NodeKind

/-- The name shown for a kind. -/
def name : NodeKind → String
  | .root => "root"
  | .importDecl => "import"
  | .exportDecl => "export"
  | .sub => "sub"
  | .funBlock => "funBlock"
  | .variableDecl => "variable"
  | .externDecl => "extern"
  | .macroCall => "macro"
  | .directive => "directive"
  | .useDecl => "use"
  | .funCall => "funCall"
  | .methodReference => "methodReference"
  | .conditional => "if"
  | .elseIf => "elseif"
  | .otherwise => "else"
  | .element => "element"

/-- `else if` and `else` hang off their `if` and follow its body. -/
def isClause : NodeKind → Bool
  | .elseIf | .otherwise => true
  | _ => false

end NodeKind

/-- Positions of a body's opening and closing token. -/
structure Braces where
  opening : Nat
  closing : Nat
deriving DecidableEq, Repr

/-- What every node has. -/
structure Head where
  signature : String
  kind : NodeKind
  /-- Tokens of the construct, a closing `;` included. -/
  tokens : Extent
  line : Nat
  /-- The first argument of a call, by which repeated calls are told apart. -/
  firstArg : Option String
deriving DecidableEq, Repr

/-- A construct of a source under its signature. The root is the only container without braces. -/
inductive Node where
  | leaf (head : Head)
  | container (head : Head) (braces : Option Braces) (nodes : List Node)
      (index : List (String × Nat))

namespace Node

def head : Node → Head
  | leaf h => h
  | container h .. => h

def signature (n : Node) : String := n.head.signature
def kind (n : Node) : NodeKind := n.head.kind
def line (n : Node) : Nat := n.head.line
def tokens (n : Node) : Extent := n.head.tokens

/-- The node under another signature. -/
def resign (sig : String) : Node → Node
  | leaf h => leaf { h with signature := sig }
  | container h braces nodes index => container { h with signature := sig } braces nodes index

instance : Signed Node := ⟨signature, resign⟩

/-- The children, of a container only. -/
def children? : Node → Option (ChildMap Node)
  | leaf _ => none
  | container _ _ nodes index => some ⟨nodes, index⟩

def isContainer (n : Node) : Bool := n.children?.isSome

def braces? : Node → Option Braces
  | leaf _ => none
  | container _ braces _ _ => braces

def child? (n : Node) (sig : String) : Option Node := n.children?.bind (·.get? sig)

/-- Tokens before the body: the part of a container that is not made of children. -/
def header (n : Node) : Extent :=
  match n.braces? with
  | some b => ⟨n.tokens.first, b.opening⟩
  | none => ⟨n.tokens.first, n.tokens.first⟩

/-- Bytes of the node in its source. -/
def span (n : Node) (s : Source) : Nat × Nat := s.byteRange n.tokens

/-- The node as written. Fails only when the node does not belong to the source. -/
def text? (n : Node) (s : Source) : Option (List Char) :=
  s.textBetween? (n.span s).1 (n.span s).2

/-- The node as written, nothing when it does not belong to the source. -/
def text (n : Node) (s : Source) : List Char := (n.text? s).getD []

/-- Follows a path of signatures down. -/
def find? (n : Node) (path : List String) : Option Node := path.foldlM child? n

end Node

/-- Whether the headers of two containers hold the same tokens. -/
def sameHeader (ours theirs : Source) (a b : Node) : Bool :=
  sameTokens (ours.slice a.header) (theirs.slice b.header)

mutual

/-- Whether two nodes mean the same. Blanks and comments do not count, and children are matched by
signature, so that their order does not count either. -/
def sameContent (ours theirs : Source) : Node → Node → Bool
  | .leaf a, .leaf b => sameTokens (ours.slice a.tokens) (theirs.slice b.tokens)
  | .container a ab nodes index, .container b bb nodes' index' =>
    sameHeader ours theirs (.container a ab nodes index) (.container b bb nodes' index') &&
      nodes.length == nodes'.length && allHaveTwin ours theirs nodes ⟨nodes', index'⟩
  | .leaf _, .container .. => false
  | .container .., .leaf _ => false

/-- Whether each node has one of its signature and content among the others. -/
def allHaveTwin (ours theirs : Source) : List Node → ChildMap Node → Bool
  | [], _ => true
  | n :: rest, others =>
    (match others.get? n.signature with
    | some twin => sameContent ours theirs n twin
    | none => false) && allHaveTwin ours theirs rest others

end

/-- A source and the tree of its constructs. -/
structure Tree where
  source : Source
  root : Node

mutual

/-- One line for each node below `n`, indented by its depth. -/
def Node.outline (depth : Nat) : Node → String
  | .leaf _ => ""
  | .container _ _ nodes _ => outlineAll depth nodes

def outlineAll (depth : Nat) : List Node → String
  | [] => ""
  | n :: rest =>
    String.ofList (List.replicate (2 * depth) ' ') ++ n.signature ++ s!"  (line {n.line})\n" ++
      n.outline (depth + 1) ++ outlineAll depth rest

end

namespace Tree

def text (t : Tree) : List Char := t.source.text

def find? (t : Tree) (path : List String) : Option Node := t.root.find? path

/-- The signatures of a tree, one line each. -/
def outline (t : Tree) : String := t.root.outline 0

/-- Whether two trees mean the same. -/
def sameContent (t u : Tree) : Bool := ModWeave.sameContent t.source u.source t.root u.root

end Tree

/-- A node together with the source it stands in. -/
structure Excerpt where
  source : Source
  node : Node

namespace Excerpt

instance : Signed Excerpt :=
  ⟨fun e => e.node.signature, fun sig e => { e with node := e.node.resign sig }⟩

def text? (e : Excerpt) : Option (List Char) := e.node.text? e.source

def text (e : Excerpt) : List Char := e.node.text e.source

def sameContent (e f : Excerpt) : Bool := ModWeave.sameContent e.source f.source e.node f.node

end Excerpt

/-- The node at a path, with its source. -/
def Tree.excerpt? (t : Tree) (path : List String) : Option Excerpt :=
  (t.find? path).map (⟨t.source, ·⟩)

end ModWeave
