import ModWeave.Proofs.Tree.Depiction
import ModWeave.Proofs.Tree.Language

/-! What a signature tells: whether a construct of a script is a clause, and whether it is an `else`.
Marks and ordinals that keep siblings apart do not hide it. -/
namespace ModWeave

/-- The signature tells clauses from statements, and the `else` from all others. -/
structure NodeKind.ToldBy (kind : NodeKind) (sig : String) : Prop where
  clause : kind.isClause = true ↔ ['e', 'l'] <+: sig.toList
  otherwise : kind = .otherwise ↔ sig = "else"

namespace NodeKind.ToldBy

variable {kind kind' : NodeKind} {sig sig' : String} {c d : Char} {cs : List Char}

theorem of_front (h : [c, d] <+: sig.toList) (hkind : kind.isClause = false)
    (hne : [c, d] ≠ ['e', 'l']) : kind.ToldBy sig := by
  have hfront : ¬ ['e', 'l'] <+: sig.toList := fun hel =>
    hne (List.prefix_of_prefix_length_le h hel (Nat.le_refl 2) |>.eq_of_length rfl)
  refine ⟨by rw [hkind]; simpa using hfront, ?_⟩
  constructor
  · rintro rfl
    cases hkind
  · rintro rfl
    exact absurd ⟨['s', 'e'], rfl⟩ hfront

/-- What is put behind a signature hides nothing, unless it is that of an `else`. -/
theorem extend (h : kind.ToldBy sig) (hkind : kind ≠ .otherwise) (hc : c ∉ ['e', 'l', 's'])
    (hsig : sig'.toList = sig.toList ++ c :: cs) : kind.ToldBy sig' := by
  refine ⟨?_, iff_of_false hkind ?_⟩
  · rw [h.clause, hsig]
    simp only [List.mem_cons, not_or] at hc
    rcases sig.toList with _ | ⟨a, _ | ⟨b, rest⟩⟩
    · simp [Ne.symm hc.1]
    · simp [Ne.symm hc.2.1]
    · simp
  · rintro rfl
    have hmem : c ∈ "else".toList := by simp [hsig]
    simp only [String.reduceToList, List.mem_cons] at hmem hc
    tauto

theorem same_clause (h : kind.ToldBy sig) (h' : kind'.ToldBy sig) : kind.isClause = kind'.isClause := by
  rw [Bool.eq_iff_iff, h.clause, h'.clause]

theorem same_else (h : kind.ToldBy sig) (h' : kind'.ToldBy sig) :
    (kind == .otherwise) = (kind' == .otherwise) := by
  rw [Bool.eq_iff_iff, beq_iff_eq, beq_iff_eq, h.otherwise, h'.otherwise]

end NodeKind.ToldBy

namespace ChildMap

variable {m : ChildMap Node} {kind : NodeKind} {key : String}

theorem toldBy_freeKey (h : kind.ToldBy key) (hkind : kind ≠ .otherwise) :
    kind.ToldBy (m.freeKey key) := by
  have hmark (n : Nat) : kind.ToldBy s!"{key}#{n}" := by
    have hsig : s!"{key}#{n}".toList = key.toList ++ '#' :: (toString n).toList := by
      simp [toString]
    exact h.extend hkind (by decide) hsig
  have hordinal (n tries : Nat) : kind.ToldBy (m.freeOrdinal key n tries) := by
    induction tries generalizing n with
    | zero => exact hmark n
    | succ tries ih =>
      rw [freeOrdinal]
      split
      · exact ih _
      · exact hmark n
  rw [freeKey]
  split
  · exact hordinal _ _
  · exact h

end ChildMap

namespace Block

variable {b : Block} {n : Node}

/-- All children are told by their signatures. -/
def Told (b : Block) : Prop := ∀ n ∈ b.children.nodes, n.kind.ToldBy n.signature

private theorem toldBy_mark {kind : NodeKind} {tag : String} (h : kind.ToldBy tag)
    (hkind : kind ≠ .otherwise) (mark : String) : kind.ToldBy (tag ++ ":" ++ mark) := by
  have hsig : (tag ++ ":" ++ mark).toList = tag.toList ++ ':' :: mark.toList := by simp
  exact h.extend hkind (by decide) hsig

private theorem told_retag (hidx : b.children.Indexed) (h : b.Told) {tag mark : String}
    (htag : tag ≠ "else") : (b.retag tag mark).Told := by
  unfold retag ChildMap.rekey
  intro n hn
  simp only at hn
  split at hn
  · exact h n hn
  · cases hp : b.children.position? tag with
    | none =>
      rw [hp] at hn
      exact h n hn
    | some i =>
      rw [hp] at hn
      obtain ⟨j, hj⟩ := List.getElem?_of_mem hn
      simp only [Option.getD_some, List.getElem?_modify] at hj
      obtain ⟨m, hm, rfl⟩ := Option.map_eq_some_iff.mp hj
      have htold := h m (List.mem_of_getElem? hm)
      split
      · rename_i hij
        subst hij
        -- the index leads to the child of the tag
        have hsig := (hidx tag i).mp hp
        rw [hm, Option.map_some, Option.some.injEq] at hsig
        rw [hsig] at htold
        have hkind : m.kind ≠ .otherwise := fun he => htag (htold.otherwise.mp he)
        simp only [Node.signed_resign, Node.kind_resign, Node.signature_resign]
        exact ChildMap.toldBy_freeKey (toldBy_mark htold hkind _) hkind
      · exact htold

private theorem told_markedKey (hidx : b.children.Indexed) (h : b.Told) {kind : NodeKind}
    {tag : String} (htag : kind.ToldBy tag) (hkind : kind ≠ .otherwise) (mark : Option String)
    (earlierMark : Node → Option String) :
    kind.ToldBy (b.markedKey tag mark earlierMark).1 ∧ (b.markedKey tag mark earlierMark).2.Told := by
  unfold markedKey
  split
  · exact ⟨toldBy_mark htag hkind _, h⟩
  · cases b.children.get? tag with
    | none => exact ⟨htag, h⟩
    | some earlier =>
      exact ⟨toldBy_mark htag hkind _, told_retag hidx h fun he => hkind (htag.otherwise.mpr he)⟩

private theorem told_key (hidx : b.children.Indexed) (h : b.Told) (hn : n.kind.ToldBy n.signature) :
    n.kind.ToldBy (b.key n).1 ∧ (b.key n).2.Told := by
  have hkind (hr : n.kind.repetition ≠ .replaces) : n.kind ≠ .otherwise := by
    intro he
    rw [he] at hr
    exact hr rfl
  unfold key
  cases hr : n.kind.repetition with
  | replaces => exact ⟨hn, h⟩
  | byOrdinal => exact ⟨ChildMap.toldBy_freeKey hn (hkind (by simp [hr])), h⟩
  | byArgument =>
    have hkind := hkind (by simp [hr])
    obtain ⟨hkey, hb⟩ := told_markedKey hidx h hn hkind n.head.firstArg (·.head.firstArg)
    exact ⟨ChildMap.toldBy_freeKey hkey hkind, hb⟩
  | byPosition =>
    have hkind := hkind (by simp [hr])
    obtain ⟨hkey, hb⟩ := told_markedKey hidx h hn hkind none fun _ => none
    exact ⟨ChildMap.toldBy_freeKey hkey hkind, hb⟩

private theorem told_attach (hidx : b.children.Indexed) (h : b.Told) (hnew : b.replaces n = false)
    (hn : n.kind.ToldBy n.signature) : (b.attach n).Told := by
  obtain ⟨hkey, hb⟩ := told_key hidx h hn
  have hfree : (b.key n).2.children.contains (n.resign (b.key n).1).signature = false := by
    rw [Node.signature_resign, ← Bool.not_eq_true, ← replaces_iff hidx, hnew]
    simp
  have hins := ((indexed_key hidx n).1.insert hfree).1
  show ∀ m ∈ ((b.key n).2.children.insert (n.resign (b.key n).1)).2.nodes, m.kind.ToldBy m.signature
  rw [hins, List.forall_mem_append, List.forall_mem_singleton, Node.kind_resign,
    Node.signature_resign]
  exact ⟨hb, hkey⟩

end Block

/-- Siblings with these labels are told by the keys that they get. -/
private theorem told_attachLabels {b : Block} {j : Nat} {ls : List Label}
    (hidx : b.children.Indexed) (h : b.Told) (hfresh : labelsRedefine b j ls = false)
    (hls : ∀ l ∈ ls, ∀ j, l.kind.ToldBy (l.tag j)) :
    (attachLabels b j ls).Told ∧ (attachLabels b j ls).children.nodes.map Node.kind =
      b.children.nodes.map Node.kind ++ ls.map Label.kind := by
  induction ls generalizing b j with
  | nil => exact ⟨h, by simp [attachLabels]⟩
  | cons l ls ih =>
    rw [List.forall_mem_cons] at hls
    simp only [labelsRedefine, Bool.or_eq_false_iff] at hfresh
    obtain ⟨hidx', hnodes⟩ := Block.indexed_attach hidx hfresh.1
    obtain ⟨htold, hkinds⟩ :=
      ih hidx' (Block.told_attach hidx h hfresh.1 (hls.1 j)) hfresh.2 hls.2
    refine ⟨htold, ?_⟩
    have hunsigned := congrArg (List.map Node.kind) hnodes
    simp only [List.map_append, List.map_map, Function.comp_def, Node.kind_resign, List.map_cons,
      List.map_nil] at hunsigned
    rw [attachLabels, hkinds, hunsigned, List.map_cons, List.append_assoc]
    rfl

/-- Children whose keys are those of labels are told by their signatures if the labels are. -/
theorem told_of_keys {ns : List Node} {ls : List Label}
    (hfresh : labelsRedefine .empty 0 ls = false) (hls : ∀ l ∈ ls, ∀ j, l.kind.ToldBy (l.tag j))
    (hkinds : ns.map Node.kind = ls.map Label.kind) (hkeys : ns.map Node.signature = keysOf ls) :
    ∀ n ∈ ns, n.kind.ToldBy n.signature := by
  have hempty : Block.empty.Told := by
    intro n hn
    cases hn
  obtain ⟨htold, hall⟩ := told_attachLabels ChildMap.indexed_empty hempty hfresh hls
  rw [show Block.empty.children.nodes = [] from rfl, List.map_nil, List.nil_append, ← hkinds] at hall
  intro n hn
  obtain ⟨i, hi⟩ := List.getElem?_of_mem hn
  have hkind := congrArg (·[i]?) hall
  have hkey := congrArg (·[i]?) hkeys
  simp only [keysOf, ChildMap.signatures, List.getElem?_map, hi, Option.map_some] at hkind hkey
  obtain ⟨m, hm, hmkind⟩ := Option.map_eq_some_iff.mp hkind
  obtain ⟨m', hm', hmkey⟩ := Option.map_eq_some_iff.mp hkey.symm
  rw [hm, Option.some.injEq] at hm'
  subst hm'
  have := htold m (List.mem_of_getElem? hm)
  rwa [hmkind, show m.signature = n.signature from hmkey] at this

section Script

open Script

private theorem toldBy_tagWith {kind : NodeKind} {tag args : String} {c d : Char}
    (h : [c, d] <+: tag.toList) (hkind : kind.isClause = false) (hne : [c, d] ≠ ['e', 'l']) :
    kind.ToldBy (tagWith tag args) := by
  unfold tagWith
  split
  · exact .of_front h hkind hne
  · refine .of_front ?_ hkind hne
    simp only [toString, String.toList_append, List.append_assoc]
    exact h.trans (List.prefix_append _ _)

private theorem LeafBody.toldBy {kind : NodeKind} {tag : String} {first : Option String}
    {ts r : List Token} (h : LeafBody kind tag first ts r) : kind.ToldBy tag := by
  cases kind with
  | importDecl =>
    obtain ⟨-, m, -, x, rfl, -⟩ := h
    exact .of_front (c := 'i') (d := 'm') (by simp [toString]) rfl (by decide)
  | exportDecl =>
    obtain ⟨-, m, -, k, -, l, ⟨x, rfl, -⟩, -⟩ := h
    exact .of_front (c := 'e') (d := 'x') (by simp [toString]) rfl (by decide)
  | externDecl =>
    obtain ⟨-, m, -, x, k, -, y, rfl, -⟩ := h
    exact .of_front (c := 'e') (d := 'x') (by simp [toString]) rfl (by decide)
  | useDecl =>
    obtain ⟨-, m, -, x, k, -, args, rfl, -⟩ := h
    exact .of_front (c := 'u') (d := 's') (by simp [toString]) rfl (by decide)
  | directive =>
    obtain ⟨-, m, -, x, k, -, args, rfl, -⟩ := h
    exact toldBy_tagWith (c := 'd') (d := 'i') (by simp [toString]) rfl (by decide)
  | macroCall =>
    obtain ⟨-, x, rfl, -⟩ := h
    exact .of_front (c := 'm') (d := 'a') (by simp [toString]) rfl (by decide)
  | variableDecl =>
    obtain ⟨-, x, m, -, y, k, ⟨rfl, -⟩, -⟩ := h
    exact .of_front (c := 'v') (d := 'a') (by simp [toString]) rfl (by decide)
  | methodReference =>
    obtain ⟨-, x, m, -, k, -, y, l, ⟨rfl, -⟩, -⟩ := h
    exact .of_front (c := 'm') (d := 'e') (by simp [toString]) rfl (by decide)
  | funCall =>
    obtain ⟨x, rfl, -⟩ := h
    exact .of_front (c := 'f') (d := 'u') (by simp [toString]) rfl (by decide)
  | root | sub | funBlock | conditional | elseIf | otherwise | element => exact h.elim

private theorem Opens.toldBy {kind : NodeKind} {tag : String} {ts r : List Token}
    (h : Opens kind tag ts r) : kind.ToldBy tag := by
  cases kind with
  | sub =>
    obtain ⟨m, -, x, k, ⟨rfl, -⟩, -⟩ := h
    exact .of_front (c := 's') (d := 'u') (by simp [toString]) rfl (by decide)
  | funBlock =>
    obtain ⟨x, m, -, args, rfl, -⟩ := h
    exact toldBy_tagWith (c := 'f') (d := 'u') (by simp [toString]) rfl (by decide)
  | conditional =>
    obtain rfl := h.1
    exact .of_front (c := 'i') (d := 'f') (by decide) rfl (by decide)
  | elseIf =>
    obtain rfl := h.1
    exact ⟨by decide, by decide⟩
  | otherwise =>
    obtain rfl := h.1
    exact ⟨by decide, by decide⟩
  | root | importDecl | exportDecl | externDecl | useDecl | directive | macroCall | variableDecl
  | methodReference | funCall | element => exact h.elim

theorem Script.Sound.toldBy {f : Form} {label : Label} (h : Script.Sound f)
    (hf : f.label? = some label) (j : Nat) : label.kind.ToldBy (label.tag j) := by
  cases h with
  | stray => cases hf
  | leaf kind tag first x ls ms split reads =>
    cases hf
    exact LeafBody.toldBy (reads _ [someToken semicolon] (content_someTokens ms) rfl)
  | block kind tag header body clauses reads =>
    cases hf
    exact Opens.toldBy (reads _ [someToken openingBrace] (content_someTokens header) rfl)

end Script

end ModWeave
