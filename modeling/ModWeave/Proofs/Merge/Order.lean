import ModWeave.Proofs.Merge.Difference

/-! Trees of which the containers have what they share in one order. -/
namespace ModWeave

/-- In every open container the children that both sides have come in one order. -/
def InOneOrder (base mod : Tree) : Prop :=
  ∀ path x y m m', OpenAt base mod path → base.find? path = some x → mod.find? path = some y →
    x.children? = some m → y.children? = some m' →
      m.signatures.filter m'.contains = m'.signatures.filter m.contains

mutual

/-- Whether in all containers that are looked into the children that both sides have are in one order. -/
def inSameOrder (s t : Source) : Node → Node → Bool
  | .container _ _ nodes index, .container _ _ nodes' index' =>
    (ChildMap.mk nodes index).signatures.filter (ChildMap.mk nodes' index').contains ==
        (ChildMap.mk nodes' index').signatures.filter (ChildMap.mk nodes index).contains &&
      allInSameOrder s t nodes ⟨nodes', index'⟩
  | _, _ => true

/-- The same in the children of the base that are looked into. -/
def allInSameOrder (s t : Source) : List Node → ChildMap Node → Bool
  | [], _ => true
  | n :: rest, others =>
    (match others.get? n.signature with
    | none => true
    | some twin => sameContent s t n twin || !sameHeader s t n twin || inSameOrder s t n twin) &&
      allInSameOrder s t rest others

end

section Order

variable {s t : Source} {x y n twin : Node} {m m' : ChildMap Node}

private theorem allInSameOrder_iff {ns : List Node} : allInSameOrder s t ns m' = true ↔
    ∀ n ∈ ns, ∀ twin, m'.get? n.signature = some twin → DifferInside s t n twin →
      inSameOrder s t n twin = true := by
  induction ns with
  | nil => simp [allInSameOrder]
  | cons a ns ih =>
    rw [allInSameOrder, Bool.and_eq_true, ih, List.forall_mem_cons, and_congr_left_iff]
    rintro -
    cases hget : m'.get? a.signature with
    | none => simp
    | some twin =>
      simp only [Bool.or_eq_true, Bool.not_eq_true', Option.some.injEq, forall_eq']
      constructor
      · rintro ((hsame | hheader) | horder) hd
        · rw [hd.content] at hsame
          cases hsame
        · rw [hd.header] at hheader
          cases hheader
        · exact horder
      · intro h
        by_cases hd : DifferInside s t a twin
        · exact .inr (h hd)
        · cases hsame : sameContent s t a twin with
          | true => exact .inl (.inl rfl)
          | false =>
            cases hheader : sameHeader s t a twin with
            | false => exact .inl (.inr rfl)
            | true =>
              -- a leaf has no children
              right
              cases a with
              | leaf => rfl
              | container =>
                cases twin with
                | leaf => rfl
                | container => exact absurd ⟨hsame, rfl, rfl, hheader⟩ hd

theorem inSameOrder_children (h : inSameOrder s t x y = true) (hx : x.children? = some m)
    (hy : y.children? = some m') :
    m.signatures.filter m'.contains = m'.signatures.filter m.contains ∧
      ∀ n ∈ m.nodes, ∀ twin, m'.get? n.signature = some twin → DifferInside s t n twin →
        inSameOrder s t n twin = true := by
  cases x with
  | leaf => cases hx
  | container =>
    cases y with
    | leaf => cases hy
    | container =>
      cases hx
      cases hy
      rw [inSameOrder, Bool.and_eq_true, beq_iff_eq] at h
      exact ⟨h.1, allInSameOrder_iff.mp h.2⟩

end Order

section Trees

variable {base mod : Tree} {path : List String} {x y : Node}

private theorem inSameOrder_of_open (hx : x.Keyed) (hy : y.Keyed) (h : InOneOrder base mod)
    (hopen : OpenAt base mod path) (hfind : base.find? path = some x) (hfind' : mod.find? path = some y) :
    inSameOrder base.source mod.source x y = true := by
  induction hx generalizing path y with
  | leaf => rfl
  | container hd b ns index hidx hbelow ih =>
  cases hy with
  | leaf => rfl
  | container hd' b' ns' index' hidx' hbelow' =>
  rw [inSameOrder, Bool.and_eq_true, beq_iff_eq, allInSameOrder_iff]
  refine ⟨h path _ _ _ _ hopen hfind hfind' rfl rfl, fun n hn twin htwin hd => ?_⟩
  have hin : base.find? (path ++ [n.signature]) = some n := by
    rw [find?_child hfind, hidx.get?_eq_some]
    exact ⟨hn, rfl⟩
  have hin' := (find?_child hfind' n.signature).trans htwin
  exact ih n hn (hbelow' twin (hidx'.get?_eq_some.mp htwin).1) (.inside hopen hin hin' hd) hin hin'

private theorem inSameOrder_at (hbase : base.root.Keyed)
    (h : inSameOrder base.source mod.source base.root mod.root = true) (hopen : OpenAt base mod path)
    (hfind : base.find? path = some x) (hfind' : mod.find? path = some y) :
    inSameOrder base.source mod.source x y = true := by
  induction hopen generalizing x y with
  | root =>
    cases hfind
    cases hfind'
    exact h
  | @inside path sig a b parent inBase inMod differ ih =>
    cases inBase.symm.trans hfind
    cases inMod.symm.trans hfind'
    rw [Tree.find?, Node.find?_concat, Option.bind_eq_some_iff] at inBase inMod
    obtain ⟨c, hc, hchild⟩ := inBase
    obtain ⟨d, hd, hchild'⟩ := inMod
    obtain ⟨m, hm, hget⟩ := Option.bind_eq_some_iff.mp hchild
    obtain ⟨m', hm', hget'⟩ := Option.bind_eq_some_iff.mp hchild'
    obtain ⟨hmem, rfl⟩ := ((hbase.find hc).indexed hm).get?_eq_some.mp hget
    exact (inSameOrder_children (ih hc hd) hm hm').2 _ hmem _ hget' differ

/-- Whether two trees are in one order can be computed. -/
theorem inOneOrder_iff (hbase : base.root.Keyed) (hmod : mod.root.Keyed) : InOneOrder base mod ↔
    inSameOrder base.source mod.source base.root mod.root = true := by
  constructor
  · exact fun h => inSameOrder_of_open hbase hmod h .root rfl rfl
  · intro h path x y m m' hopen hfind hfind' hm hm'
    exact (inSameOrder_children (inSameOrder_at hbase h hopen hfind hfind') hm hm').1

end Trees

end ModWeave
