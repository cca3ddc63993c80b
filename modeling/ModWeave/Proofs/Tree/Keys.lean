import ModWeave.Proofs.Tree.Form

/-! Signatures among siblings. They depend on labels alone, and as long as nothing is redefined every
child stays where it was put and is found under its own signature. -/
namespace ModWeave

@[simp] theorem Node.signed_signature (n : Node) : Signed.signature n = n.signature := rfl

@[simp] theorem Node.signed_resign (n : Node) (sig : String) : Signed.resign sig n = n.resign sig :=
  rfl

@[simp] theorem Node.signature_resign (n : Node) (sig : String) : (n.resign sig).signature = sig := by
  cases n <;> rfl

@[simp] theorem Node.kind_resign (n : Node) (sig : String) : (n.resign sig).kind = n.kind := by
  cases n <;> rfl

@[simp] theorem Node.resign_resign (n : Node) (sig sig' : String) :
    (n.resign sig').resign sig = n.resign sig := by
  cases n <;> rfl

/-- A change of nodes that leaves what signatures are made from as it is. -/
structure KeepsLabels (f : Node → Node) : Prop where
  signature (n : Node) : (f n).signature = n.signature
  kind (n : Node) : (f n).kind = n.kind
  firstArg (n : Node) : (f n).head.firstArg = n.head.firstArg
  resign (n : Node) (sig : String) : f (n.resign sig) = (f n).resign sig

namespace ChildMap

/-- The children changed one by one, each in its place. -/
def mapped (f : Node → Node) (m : ChildMap Node) : ChildMap Node := ⟨m.nodes.map f, m.index⟩

variable {f : Node → Node} (hf : KeepsLabels f) (m : ChildMap Node)

@[simp] theorem position?_mapped (sig : String) : (m.mapped f).position? sig = m.position? sig := rfl

@[simp] theorem contains_mapped (sig : String) : (m.mapped f).contains sig = m.contains sig := rfl

@[simp] theorem size_mapped : (m.mapped f).size = m.size := by simp [mapped, size]

theorem get?_mapped (sig : String) : (m.mapped f).get? sig = (m.get? sig).map f := by
  unfold get?
  rw [position?_mapped]
  cases m.position? sig with
  | none => rfl
  | some i => exact List.getElem?_map

@[simp] theorem freeOrdinal_mapped (key : String) (n tries : Nat) :
    (m.mapped f).freeOrdinal key n tries = m.freeOrdinal key n tries := by
  induction tries generalizing n with
  | zero => rfl
  | succ tries ih => simp only [freeOrdinal, contains_mapped, ih]

@[simp] theorem freeKey_mapped (key : String) : (m.mapped f).freeKey key = m.freeKey key := by
  simp only [freeKey, contains_mapped, size_mapped, freeOrdinal_mapped]

include hf

theorem signatures_mapped : (m.mapped f).signatures = m.signatures := by
  simp only [signatures, mapped, List.map_map]
  exact List.map_congr_left fun n _ => hf.signature n

theorem countPrefixed_mapped (start : String) :
    (m.mapped f).countPrefixed start = m.countPrefixed start := by
  simp only [countPrefixed, mapped, List.filter_map, List.length_map, Function.comp_def,
    Node.signed_signature, hf.signature]

theorem insert_mapped (n : Node) :
    (m.mapped f).insert (f n) = ((m.insert n).1.map f, (m.insert n).2.mapped f) := by
  unfold insert
  simp only [Node.signed_signature, hf.signature, position?_mapped]
  cases m.position? n.signature with
  | none => simp [mapped]
  | some i => simp [mapped]

theorem rekey_mapped (source target : String) :
    (m.mapped f).rekey source target = (m.rekey source target).map (mapped f) := by
  unfold rekey
  rw [contains_mapped, position?_mapped]
  split
  · rfl
  · cases m.position? source with
    | none => rfl
    | some i =>
      have hnodes : (m.nodes.map f).modify i (Signed.resign target) =
          (m.nodes.modify i (Signed.resign target)).map f := by
        apply List.ext_getElem?
        intro k
        simp only [List.getElem?_modify, List.getElem?_map]
        cases m.nodes[k]? with
        | none => split <;> rfl
        | some n => split <;> simp [hf.resign]
      simp only [mapped, Option.map_some, hnodes]

end ChildMap

namespace Block

def mapped (f : Node → Node) (b : Block) : Block := ⟨b.children.mapped f, b.repeated⟩

variable {f : Node → Node} (hf : KeepsLabels f)

@[simp] theorem mapped_empty : empty.mapped f = empty := rfl

@[simp] theorem children_mapped (b : Block) : (b.mapped f).children = b.children.mapped f := rfl

@[simp] theorem repeated_mapped (b : Block) : (b.mapped f).repeated = b.repeated := rfl

include hf

theorem retag_mapped (b : Block) (tag mark : String) :
    (b.mapped f).retag tag mark = (b.retag tag mark).mapped f := by
  unfold retag
  simp only [children_mapped, repeated_mapped, ChildMap.freeKey_mapped, ChildMap.rekey_mapped hf]
  cases b.children.rekey tag (b.children.freeKey (tag ++ ":" ++ mark)) <;> rfl

theorem markedKey_mapped (b : Block) (tag : String) (mark : Option String)
    (earlierMark : Node → Option String) (h : ∀ n : Node, earlierMark (f n) = earlierMark n) :
    (b.mapped f).markedKey tag mark earlierMark =
      ((b.markedKey tag mark earlierMark).1, (b.markedKey tag mark earlierMark).2.mapped f) := by
  unfold markedKey
  simp only [children_mapped, repeated_mapped, ChildMap.countPrefixed_mapped hf, ChildMap.get?_mapped]
  split
  · rfl
  · cases b.children.get? tag with
    | none => rfl
    | some earlier => simp only [Option.map_some, h, retag_mapped hf]

theorem key_mapped (b : Block) (n : Node) :
    (b.mapped f).key (f n) = ((b.key n).1, (b.key n).2.mapped f) := by
  unfold key
  simp only [hf.kind, hf.signature, hf.firstArg]
  cases n.kind.repetition with
  | replaces => rfl
  | byOrdinal => simp
  | byArgument =>
    have h := markedKey_mapped hf b n.signature n.head.firstArg (·.head.firstArg) hf.firstArg
    simp [h]
  | byPosition =>
    have h := markedKey_mapped hf b n.signature none (fun _ => none) fun _ => rfl
    simp [h]

theorem attach_mapped (b : Block) (n : Node) : (b.mapped f).attach (f n) = (b.attach n).mapped f := by
  unfold attach
  simp only [key_mapped hf, children_mapped, ← hf.resign, ChildMap.insert_mapped hf]
  rfl

end Block

/-- The node apart from where it stands and what is in it. -/
def Node.bare (n : Node) : Node := .leaf ⟨n.signature, n.kind, ⟨0, 0⟩, 0, n.head.firstArg⟩

theorem Node.bare_resign (n : Node) (sig : String) : (n.resign sig).bare = n.bare.resign sig := by
  cases n <;> rfl

theorem keepsLabels_bare : KeepsLabels Node.bare :=
  ⟨fun _ => rfl, fun _ => rfl, fun _ => rfl, Node.bare_resign⟩

def ChildMap.bare (m : ChildMap Node) : ChildMap Node := ⟨m.nodes.map Node.bare, m.index⟩

@[simp] theorem ChildMap.signatures_bare (m : ChildMap Node) : m.bare.signatures = m.signatures :=
  signatures_mapped keepsLabels_bare m

namespace Block

def bare (b : Block) : Block := ⟨b.children.bare, b.repeated⟩

@[simp] theorem bare_empty : empty.bare = empty := rfl

@[simp] theorem children_bare (b : Block) : b.bare.children = b.children.bare := rfl

theorem attach_bare (b : Block) (n : Node) : b.bare.attach n.bare = (b.attach n).bare :=
  attach_mapped keepsLabels_bare b n

/-- Whether a node would take the place of one that is there already. -/
def replaces (b : Block) (node : Node) : Bool :=
  let (key, b) := b.key node
  (b.children.insert (node.resign key)).1.isSome

theorem replaces_bare (b : Block) (n : Node) : b.bare.replaces n.bare = b.replaces n := by
  have hkey : b.bare.key n.bare = ((b.key n).1, (b.key n).2.bare) := key_mapped keepsLabels_bare b n
  unfold replaces
  simp only [hkey, children_bare, ← Node.bare_resign]
  exact congrArg (·.1.isSome) (ChildMap.insert_mapped keepsLabels_bare _ _) |>.trans (Option.isSome_map ..)

end Block

mutual

/-- Whether a construct takes the place of an earlier one somewhere inside. -/
def Construct.redefines : Construct → Bool
  | .leaf .. => false
  | .block _ _ _ _ _ body => redefinesAmong .empty body

/-- Whether a construct among these, put behind the children of `b`, takes the place of an earlier one,
or one inside of them does. -/
def redefinesAmong (b : Block) : List Construct → Bool
  | [] => false
  | c :: rest => c.redefines || b.replaces c.node || redefinesAmong (b.attach c.node) rest

end

/-- Whether a construct among these, put behind the children of `b`, takes the place of an earlier one.
What happens inside of them does not count. -/
def replacesAmong (b : Block) : List Construct → Bool
  | [] => false
  | c :: rest => b.replaces c.node || replacesAmong (b.attach c.node) rest

theorem replacesAmong_of_redefines {b : Block} {cs : List Construct} (h : redefinesAmong b cs = false) :
    replacesAmong b cs = false := by
  induction cs generalizing b with
  | nil => rfl
  | cons c cs ih =>
    simp only [redefinesAmong, Bool.or_eq_false_iff] at h
    rw [replacesAmong, h.1.2, ih h.2, Bool.or_false]

theorem attachAll_append (b : Block) (cs ds : List Construct) :
    attachAll b (cs ++ ds) = attachAll (attachAll b cs) ds := by
  induction cs generalizing b with
  | nil => rfl
  | cons c cs ih => exact ih _

theorem redefinesAmong_append (b : Block) (cs ds : List Construct) :
    redefinesAmong b (cs ++ ds) = (redefinesAmong b cs || redefinesAmong (attachAll b cs) ds) := by
  induction cs generalizing b with
  | nil => simp [redefinesAmong, attachAll]
  | cons c cs ih => simp [redefinesAmong, attachAll, ih, Bool.or_assoc]

/-- A node with nothing but a label, as the `j`-th among its siblings. -/
def Label.node (l : Label) (j : Nat) : Node := .leaf ⟨l.tag j, l.kind, ⟨0, 0⟩, 0, l.firstArg⟩

/-- Adds labels in order, the first as the `j`-th child. -/
def attachLabels (b : Block) (j : Nat) : List Label → Block
  | [] => b
  | l :: ls => attachLabels (b.attach (l.node j)) (j + 1) ls

def labelsRedefine (b : Block) (j : Nat) : List Label → Bool
  | [] => false
  | l :: ls => b.replaces (l.node j) || labelsRedefine (b.attach (l.node j)) (j + 1) ls

/-- The signatures that siblings with these labels get. -/
def keysOf (ls : List Label) : List String := (attachLabels .empty 0 ls).children.signatures

mutual

def Form.redefines : Form → Bool
  | .stray _ => false
  | .leaf .. => false
  | .block _ _ _ body _ clauses _ =>
    anyRedefines body || anyRedefines clauses ||
      labelsRedefine .empty 0 (labelsOf body ++ labelsOf clauses)

def anyRedefines : List Form → Bool
  | [] => false
  | f :: fs => f.redefines || anyRedefines fs

end

theorem anyRedefines_iff {fs : List Form} :
    anyRedefines fs = false ↔ ∀ f ∈ fs, f.redefines = false := by
  induction fs with
  | nil => simp [anyRedefines]
  | cons f fs ih => rw [anyRedefines, Bool.or_eq_false_iff, ih, List.forall_mem_cons]

variable {s : Source} {i j : Nat}

theorem attachLabels_append (b : Block) (j : Nat) (ls ms : List Label) :
    attachLabels b j (ls ++ ms) = attachLabels (attachLabels b j ls) (j + ls.length) ms := by
  induction ls generalizing b j with
  | nil => rfl
  | cons l ls ih =>
    simp only [List.cons_append, attachLabels, ih, List.length_cons, Nat.add_assoc, Nat.add_comm 1]

theorem labelsRedefine_append (b : Block) (j : Nat) (ls ms : List Label) :
    labelsRedefine b j (ls ++ ms) =
      (labelsRedefine b j ls || labelsRedefine (attachLabels b j ls) (j + ls.length) ms) := by
  induction ls generalizing b j with
  | nil => simp [labelsRedefine, attachLabels]
  | cons l ls ih =>
    simp only [List.cons_append, labelsRedefine, attachLabels, ih, List.length_cons, Nat.add_assoc,
      Nat.add_comm 1, Bool.or_assoc]

/-- The label and the construct of a form give nodes that differ in their places and insides only. -/
theorem Form.constructs_cases (f : Form) (s : Source) (i j : Nat) :
    (f.label? = none ∧ f.constructs s i j = []) ∨
      ∃ l c, f.label? = some l ∧ f.constructs s i j = [c] ∧ c.node.bare = l.node j := by
  cases f with
  | stray x => exact .inl ⟨rfl, rfl⟩
  | leaf label x ls => exact .inr ⟨_, _, rfl, rfl, rfl⟩
  | block label header opening body closing clauses trail => exact .inr ⟨_, _, rfl, rfl, rfl⟩

theorem attachAll_bare (b : Block) (fs : List Form) (s : Source) (i j : Nat) :
    (attachAll b (constructsAll s i j fs)).bare = attachLabels b.bare j (labelsOf fs) := by
  induction fs generalizing b i j with
  | nil => rfl
  | cons f fs ih =>
    rw [constructsAll, labelsOf_cons, attachAll_append, attachLabels_append, length_label?, ih]
    obtain ⟨hl, hc⟩ | ⟨l, c, hl, hc, hbare⟩ := f.constructs_cases s i j
    · rw [hl, hc]
      rfl
    · rw [hl, hc]
      show attachLabels (b.attach c.node).bare _ _ = attachLabels (b.bare.attach (l.node j)) _ _
      rw [← hbare, Block.attach_bare]

/-- Children are known by keys that depend on nothing but their labels. -/
theorem signatures_attachAll (fs gs : List Form) (s : Source) (i k : Nat) :
    (attachAll .empty (constructsAll s i 0 fs ++
      constructsAll s k (labelsOf fs).length gs)).children.signatures =
        keysOf (labelsOf fs ++ labelsOf gs) := by
  rw [attachAll_append, ← ChildMap.signatures_bare, ← Block.children_bare, attachAll_bare,
    attachAll_bare, keysOf, attachLabels_append, Nat.zero_add, Block.bare_empty]

mutual

theorem Form.redefines_constructs (f : Form) (s : Source) (i j : Nat) :
    (f.constructs s i j).any Construct.redefines = f.redefines := by
  cases f with
  | stray x => rfl
  | leaf label x ls => rfl
  | block label header opening body closing clauses trail =>
    simp only [Form.constructs, List.any_cons, List.any_nil, Bool.or_false, Construct.redefines,
      Form.redefines, redefinesAmong_append, redefinesAmong_constructsAll body,
      redefinesAmong_constructsAll clauses, attachAll_bare, labelsRedefine_append, Block.bare_empty]
    simp only [Nat.zero_add]
    grind

theorem redefinesAmong_constructsAll (fs : List Form) (b : Block) (s : Source) (i j : Nat) :
    redefinesAmong b (constructsAll s i j fs) =
      (anyRedefines fs || labelsRedefine b.bare j (labelsOf fs)) := by
  cases fs with
  | nil => rfl
  | cons f fs =>
    have hf := Form.redefines_constructs f s i j
    rw [constructsAll, labelsOf_cons, redefinesAmong_append, labelsRedefine_append,
      redefinesAmong_constructsAll fs, anyRedefines, length_label?]
    obtain ⟨hl, hc⟩ | ⟨l, c, hl, hc, hbare⟩ := f.constructs_cases s i j
    · rw [hc] at hf
      rw [hl, hc]
      simp [redefinesAmong, labelsRedefine, attachAll, attachLabels, ← hf]
    · rw [hc] at hf
      rw [hl, hc]
      simp only [List.any_cons, List.any_nil, Bool.or_false] at hf
      simp only [redefinesAmong, Bool.or_false, attachAll, hf, Option.toList_some, labelsRedefine,
        attachLabels, ← hbare, Block.attach_bare, Block.replaces_bare]
      grind

end

end ModWeave
