import Mathlib.Data.List.Induction
import ModWeave.Proofs.Merge.Changes
import ModWeave.Proofs.Tree.Language

/-! A diff is the set of the shallowest differences: it is told by the two trees alone which records and
additions there are. -/
namespace ModWeave

/-- Paths to the containers that a comparison looks into. -/
inductive OpenAt (base mod : Tree) : List String → Prop
  | root : OpenAt base mod []
  | inside {path : List String} {sig : String} {a b : Node} (parent : OpenAt base mod path)
      (inBase : base.find? (path ++ [sig]) = some a) (inMod : mod.find? (path ++ [sig]) = some b)
      (differ : DifferInside base.source mod.source a b) : OpenAt base mod (path ++ [sig])

/-- The records of the constructs that stand in an open container of the base and are missing from the
mod, or differ from it as a whole. -/
inductive Reported (names : SourceNames) (base mod : Tree) : Conflict → Prop
  | removal (path : List String) (sig : String) (a : Node) (parent : OpenAt base mod path)
      (inBase : base.find? (path ++ [sig]) = some a) (absent : mod.find? (path ++ [sig]) = none) :
      Reported names base mod ⟨names, sig, path ++ [sig], ⟨base.source, a⟩, none, none⟩
  | modification (path : List String) (sig : String) (a b : Node) (parent : OpenAt base mod path)
      (inBase : base.find? (path ++ [sig]) = some a) (inMod : mod.find? (path ++ [sig]) = some b)
      (differ : sameContent base.source mod.source a b = false)
      (whole : ¬ OpenAt base mod (path ++ [sig])) :
      Reported names base mod
        ⟨names, sig, path ++ [sig], ⟨base.source, a⟩, some ⟨mod.source, b⟩, none⟩

/-- What only the mod has in an open container. -/
structure OnlyInMod (base mod : Tree) (path : List String) (sig : String) : Prop where
  parent : OpenAt base mod path
  absent : base.find? (path ++ [sig]) = none
  inMod : (mod.find? (path ++ [sig])).isSome

section Open

variable {base mod : Tree} {path q : List String} {sig : String} {a b : Node}

theorem openAt_concat_iff : OpenAt base mod (path ++ [sig]) ↔ OpenAt base mod path ∧
    ∃ a b, base.find? (path ++ [sig]) = some a ∧ mod.find? (path ++ [sig]) = some b ∧
      DifferInside base.source mod.source a b := by
  constructor
  · intro h
    generalize hp : path ++ [sig] = p at h
    cases h with
    | root => simp at hp
    | inside parent inBase inMod differ =>
      obtain ⟨rfl, hsig⟩ := List.append_inj' hp rfl
      cases hsig
      exact ⟨parent, _, _, inBase, inMod, differ⟩
  · rintro ⟨parent, a, b, inBase, inMod, differ⟩
    exact .inside parent inBase inMod differ

/-- Everything above an open container is open. -/
theorem OpenAt.of_append (h : OpenAt base mod (path ++ q)) : OpenAt base mod path := by
  induction q using List.reverseRecOn with
  | nil => rwa [List.append_nil] at h
  | append_singleton q sig ih =>
    rw [← List.append_assoc, openAt_concat_iff] at h
    exact ih h.1

theorem OpenAt.of_isPrefix {p : List String} (h : OpenAt base mod p) (hp : path <+: p) :
    OpenAt base mod path := by
  obtain ⟨q, rfl⟩ := hp
  exact h.of_append

theorem OpenAt.differ (h : OpenAt base mod (path ++ [sig])) (ha : base.find? (path ++ [sig]) = some a)
    (hb : mod.find? (path ++ [sig]) = some b) : DifferInside base.source mod.source a b := by
  obtain ⟨-, a', b', ha', hb', hdiffer⟩ := openAt_concat_iff.mp h
  cases ha.symm.trans ha'
  cases hb.symm.trans hb'
  exact hdiffer

end Open

section Records

variable {names : SourceNames} {base mod : Tree} {r r' : Conflict}

/-- A record lies below an open container and is not one itself. -/
theorem Reported.place (h : Reported names base mod r) : r.path = r.path.dropLast ++ [r.signature] ∧
    OpenAt base mod r.path.dropLast ∧ ¬ OpenAt base mod r.path := by
  cases h with
  | removal path sig a parent inBase absent =>
    refine ⟨by simp, by simpa using parent, fun hopen => ?_⟩
    obtain ⟨-, -, b, -, hb, -⟩ := openAt_concat_iff.mp hopen
    simp [absent] at hb
  | modification path sig a b parent inBase inMod differ whole =>
    exact ⟨by simp, by simpa using parent, whole⟩

theorem Reported.found (h : Reported names base mod r) :
    base.find? r.path = some r.base.node ∧ r.base.source = base.source := by
  cases h with
  | removal path sig a parent inBase absent => exact ⟨inBase, rfl⟩
  | modification path sig a b parent inBase inMod differ whole => exact ⟨inBase, rfl⟩

theorem Reported.found_mod (h : Reported names base mod r) {m : Excerpt} (hm : r.mod = some m) :
    mod.find? r.path = some m.node ∧ m.source = mod.source := by
  cases h with
  | removal => cases hm
  | modification path sig a b parent inBase inMod differ whole =>
    cases hm
    exact ⟨inMod, rfl⟩

/-- There is one record at most for a path. -/
theorem Reported.eq_of_path (h : Reported names base mod r) (h' : Reported names base mod r')
    (hpath : r.path = r'.path) : r = r' := by
  cases h with
  | removal path sig a parent inBase absent =>
    cases h' with
    | removal path' sig' a' parent' inBase' absent' =>
      obtain ⟨rfl, hsig⟩ := List.append_inj' hpath rfl
      cases hsig
      cases inBase.symm.trans inBase'
      rfl
    | modification path' sig' a' b' parent' inBase' inMod' differ' whole' =>
      obtain ⟨rfl, hsig⟩ := List.append_inj' hpath rfl
      cases hsig
      cases absent.symm.trans inMod'
  | modification path sig a b parent inBase inMod differ whole =>
    cases h' with
    | removal path' sig' a' parent' inBase' absent' =>
      obtain ⟨rfl, hsig⟩ := List.append_inj' hpath rfl
      cases hsig
      cases absent'.symm.trans inMod
    | modification path' sig' a' b' parent' inBase' inMod' differ' whole' =>
      obtain ⟨rfl, hsig⟩ := List.append_inj' hpath rfl
      cases hsig
      cases inBase.symm.trans inBase'
      cases inMod.symm.trans inMod'
      rfl

/-- A record below a node that is not open is the record of that node. -/
theorem Reported.path_eq (h : Reported names base mod r) {p : List String} (hp : p <+: r.path)
    (hopen : ¬ OpenAt base mod p) : r.path = p := by
  obtain ⟨hpath, hparent, -⟩ := h.place
  rw [hpath] at hp ⊢
  rcases List.prefix_concat_iff.mp hp with heq | hp
  · exact heq.symm
  · exact absurd (hparent.of_isPrefix hp) hopen

/-- No record lies below another. -/
theorem Reported.eq_of_isPrefix (h : Reported names base mod r) (h' : Reported names base mod r')
    (hp : r.path <+: r'.path) : r = r' :=
  h.eq_of_path h' (h'.path_eq hp h.place.2.2).symm

end Records

/-- These are the changes at and below a path. -/
structure ExactAt (names : SourceNames) (base mod : Tree) (path : List String) (c : Changes) :
    Prop where
  conflicts : ∀ r, r ∈ c.conflicts ↔ Reported names base mod r ∧ path <+: r.path
  additions : ∀ p sig, (∃ a ∈ c.additions, a.parent = p ∧ a.signature = sig) ↔
    OnlyInMod base mod p sig ∧ path <+: p
  distinct : c.conflicts.Pairwise fun r r' => r.path ≠ r'.path
  separate : c.additions.Pairwise fun a a' => (a.parent, a.signature) ≠ (a'.parent, a'.signature)

section Parts

variable {names : SourceNames} {base mod : Tree} {path : List String}

theorem find?_child {t : Tree} {h : Head} {b : Option Braces} {ns : List Node}
    {index : List (String × Nat)} (hfind : t.find? path = some (.container h b ns index))
    (sig : String) : t.find? (path ++ [sig]) = ChildMap.get? ⟨ns, index⟩ sig :=
  Tree.find?_concat hfind rfl sig

/-- What holds of the changes in two open containers whenever it holds of those in the children that are
looked into holds of a whole diff. -/
theorem diff_induction {Q : List String → Node → Node → Changes → Prop} {c : Changes}
    (step : ∀ (path : List String) (h h' : Head) (b b' : Option Braces) (ns ns' : List Node)
      (index index' : List (String × Nat)) (parts : List Changes) (as : List Addition),
      base.find? path = some (.container h b ns index) →
      mod.find? path = some (.container h' b' ns' index') → OpenAt base mod path →
      ChildMap.Indexed ⟨ns, index⟩ → ChildMap.Indexed ⟨ns', index'⟩ →
      List.Forall₂ (ChildPart names base.source mod.source Q path ⟨ns', index'⟩) ns parts →
      List.Forall₂ (AdditionOf ⟨base.source, mod.source, .container h b ns index,
        .container h' b' ns' index', ⟨ns, index⟩⟩ path) ((splits [] ns').filter fun z =>
          !(ChildMap.mk ns index).contains z.2.1.signature) as →
      Q path (.container h b ns index) (.container h' b' ns' index')
        ⟨parts.flatMap Changes.conflicts, parts.flatMap Changes.additions ++ as⟩)
    (hbase : base.root.Keyed) (hmod : mod.root.Keyed) (hb : base.root.isContainer)
    (hm : mod.root.isContainer) (h : diff names base mod = some c) : Q [] base.root mod.root c := by
  refine diffInside_induction (Q := fun p a b c => base.find? p = some a → mod.find? p = some b →
    OpenAt base mod p → Q p a b c) ?_ hb hm h rfl rfl .root
  intro path h h' b b' ns ns' index index' parts as hparts has hfind hfind' hopen
  cases hbase.find hfind with
  | container _ _ _ _ hidx _ =>
  cases hmod.find hfind' with
  | container _ _ _ _ hidx' _ =>
  refine step path h h' b b' ns ns' index index' parts as hfind hfind' hopen hidx hidx' ?_ has
  refine forall₂_imp_of_mem hparts fun n hn part hpart => ?_
  have hfound : base.find? (path ++ [n.signature]) = some n := by
    rw [find?_child hfind, hidx.get?_eq_some]
    exact ⟨hn, rfl⟩
  cases hpart with
  | removed absent => exact .removed absent
  | same twin found same => exact .same twin found same
  | modified twin found differ whole => exact .modified twin found differ whole
  | inside twin part found differ known =>
    have hfound' := (find?_child hfind' n.signature).trans found
    exact .inside twin part found differ
      (known hfound hfound' (.inside hopen hfound hfound' differ))

/-- Where no container is open only the mod has nothing. -/
private theorem not_onlyInMod (hclosed : ¬ OpenAt base mod path) (p : List String) (sig : String) :
    ¬ (OnlyInMod base mod p sig ∧ path <+: p) :=
  fun ⟨honly, hp⟩ => hclosed (honly.parent.of_isPrefix hp)

/-- A record is all there is at its path and below. -/
private theorem Reported.exactAt {r : Conflict} (h : Reported names base mod r) :
    ExactAt names base mod r.path ⟨[r], []⟩ := by
  refine ⟨fun r' => ?_, fun p sig => ?_, List.pairwise_singleton _ _, List.Pairwise.nil⟩
  · rw [List.mem_singleton]
    constructor
    · rintro rfl
      exact ⟨h, List.prefix_rfl⟩
    · rintro ⟨h', hp⟩
      exact (h.eq_of_isPrefix h' hp).symm
  · simpa using not_onlyInMod h.place.2.2 p sig

private theorem exactAt_of_childPart {others : ChildMap Node} {n : Node} {part : Changes}
    (hopen : OpenAt base mod path)
    (hbase : base.find? (path ++ [n.signature]) = some n)
    (hmod : mod.find? (path ++ [n.signature]) = others.get? n.signature)
    (h : ChildPart names base.source mod.source (fun p _ _ c => ExactAt names base mod p c) path
      others n part) :
    ExactAt names base mod (path ++ [n.signature]) part := by
  cases h with
  | removed absent =>
    rw [absent] at hmod
    exact (Reported.removal path n.signature n hopen hbase hmod).exactAt
  | same twin found same =>
    rw [found] at hmod
    have hclosed : ¬ OpenAt base mod (path ++ [n.signature]) := fun h =>
      absurd same (Bool.eq_false_iff.mp (h.differ hbase hmod).content)
    refine ⟨fun r => ?_, fun p sig => ?_, List.Pairwise.nil, List.Pairwise.nil⟩
    · simp only [Changes.none, List.not_mem_nil, false_iff]
      rintro ⟨hr, hp⟩
      have hpath := hr.path_eq hp hclosed
      cases hr with
      | removal p sig a parent inBase absent =>
        rw [show p ++ [sig] = path ++ [n.signature] from hpath, hmod] at absent
        cases absent
      | modification p sig a b parent inBase inMod differ whole =>
        rw [show p ++ [sig] = path ++ [n.signature] from hpath] at inBase inMod
        cases hbase.symm.trans inBase
        cases hmod.symm.trans inMod
        exact absurd same (Bool.eq_false_iff.mp differ)
    · simpa [Changes.none] using not_onlyInMod hclosed p sig
  | modified twin found differ whole =>
    rw [found] at hmod
    have hclosed : ¬ OpenAt base mod (path ++ [n.signature]) := fun h => whole (h.differ hbase hmod)
    exact (Reported.modification path n.signature n twin hopen hbase hmod differ hclosed).exactAt
  | inside twin part found differ known =>
    rw [found] at hmod
    exact known

section Container

variable {h h' : Head} {b b' : Option Braces} {ns ns' : List Node} {index index' : List (String × Nat)}
  {parts : List Changes} {as : List Addition}

/-- The children that only the mod has, one addition for each. -/
private theorem additions_of_container (hbase : base.find? path = some (.container h b ns index))
    (hmod : mod.find? path = some (.container h' b' ns' index')) (hopen : OpenAt base mod path)
    (hidx : ChildMap.Indexed ⟨ns, index⟩) (hidx' : ChildMap.Indexed ⟨ns', index'⟩)
    (has : List.Forall₂ (AdditionOf ⟨base.source, mod.source, .container h b ns index,
      .container h' b' ns' index', ⟨ns, index⟩⟩ path) ((splits [] ns').filter fun z =>
        !(ChildMap.mk ns index).contains z.2.1.signature) as) :
    (∀ p sig, (∃ a ∈ as, a.parent = p ∧ a.signature = sig) ↔ OnlyInMod base mod p sig ∧ p = path) ∧
      as.Pairwise fun a a' => (a.parent, a.signature) ≠ (a'.parent, a'.signature) := by
  have hlacks (sig : String) : base.find? (path ++ [sig]) = none ↔
      (ChildMap.mk ns index).contains sig = false := by
    rw [find?_child hbase, ← Option.not_isSome_iff_eq_none, hidx.get?_isSome, Bool.not_eq_true]
  constructor
  · intro p sig
    have hmem := mem_flatMap_of_forall₂ (f := fun a => [(a.parent, a.signature)])
      (P := fun z k => k = (path, z.2.1.signature)) has
      (fun z a hz k => by rw [List.mem_singleton, hz.parent, hz.signature]) (p, sig)
    have hiff : (∃ a ∈ as, a.parent = p ∧ a.signature = sig) ↔
        (p, sig) ∈ as.flatMap fun a => [(a.parent, a.signature)] := by
      simp [List.mem_flatMap, eq_comm]
    rw [hiff, hmem]
    constructor
    · rintro ⟨z, hz, hk⟩
      cases hk
      obtain ⟨hz, hlack⟩ := List.mem_filter.mp hz
      have hin : z.2.1 ∈ ns' := map_splits [] ns' ▸ List.mem_map_of_mem hz
      refine ⟨⟨hopen, (hlacks _).mpr (by simpa using hlack), ?_⟩, rfl⟩
      rw [find?_child hmod, (hidx'.get?_eq_some (n := z.2.1)).mpr ⟨hin, rfl⟩]
      rfl
    · rintro ⟨honly, rfl⟩
      obtain ⟨m, hm⟩ := Option.isSome_iff_exists.mp honly.inMod
      rw [find?_child hmod, hidx'.get?_eq_some] at hm
      obtain ⟨hm, rfl⟩ := hm
      rw [← map_splits [] ns'] at hm
      obtain ⟨z, hz, rfl⟩ := List.mem_map.mp hm
      refine ⟨z, List.mem_filter.mpr ⟨hz, ?_⟩, rfl⟩
      rw [(hlacks _).mp honly.absent]
      rfl
  · have hsplits : (splits [] ns').Pairwise fun z z' => z.2.1.signature ≠ z'.2.1.signature := by
      have hnodup := hidx'.nodup
      rw [ChildMap.signatures, ← map_splits [] ns', List.map_map] at hnodup
      exact List.pairwise_map.mp hnodup
    have hkeyed := pairwise_flatMap_of_forall₂ (f := fun a => [a])
      (T := fun a a' : Addition => (a.parent, a.signature) ≠ (a'.parent, a'.signature))
      (P := fun z a => a.signature = z.2.1.signature) has (hsplits.filter _)
      (fun z a hz a' ha' => by rw [List.mem_singleton.mp ha', hz.signature])
      (fun z a _ => List.pairwise_singleton _ _)
      (fun z z' a a' hne ha ha' heq => hne (by
        rw [← ha, ← ha']
        exact (Prod.ext_iff.mp heq).2))
    simpa using hkeyed

/-- What only the mod has somewhere inside the children. -/
private theorem additions_of_parts
    (hparts : List.Forall₂ (fun n part => ExactAt names base mod (path ++ [n.signature]) part) ns parts)
    (p : List String) (sig : String) :
    (∃ a ∈ parts.flatMap Changes.additions, a.parent = p ∧ a.signature = sig) ↔
      ∃ n ∈ ns, OnlyInMod base mod p sig ∧ path ++ [n.signature] <+: p := by
  have hmem := mem_flatMap_of_forall₂ (f := fun c : Changes => c.additions.map fun a =>
    (a.parent, a.signature)) (P := fun n k => OnlyInMod base mod k.1 k.2 ∧
      path ++ [n.signature] <+: k.1) hparts
    (fun n part hpart k => by rw [← hpart.additions]; simp [Prod.ext_iff]) (p, sig)
  rw [← hmem, ← List.map_flatMap, List.mem_map]
  simp [Prod.ext_iff]

/-- The changes of the children and what only the mod has are the changes of a container. -/
private theorem exactAt_of_parts (hbase : base.find? path = some (.container h b ns index))
    (hmod : mod.find? path = some (.container h' b' ns' index')) (hopen : OpenAt base mod path)
    (hidx : ChildMap.Indexed ⟨ns, index⟩) (hidx' : ChildMap.Indexed ⟨ns', index'⟩)
    (hparts : List.Forall₂ (fun n part => ExactAt names base mod (path ++ [n.signature]) part) ns parts)
    (has : List.Forall₂ (AdditionOf ⟨base.source, mod.source, .container h b ns index,
      .container h' b' ns' index', ⟨ns, index⟩⟩ path) ((splits [] ns').filter fun z =>
        !(ChildMap.mk ns index).contains z.2.1.signature) as) :
    ExactAt names base mod path ⟨parts.flatMap Changes.conflicts,
      parts.flatMap Changes.additions ++ as⟩ := by
  obtain ⟨hown, hseparate⟩ := additions_of_container hbase hmod hopen hidx hidx' has
  have hinner := additions_of_parts hparts
  have hapart : ns.Pairwise fun n n' => n.signature ≠ n'.signature := List.pairwise_map.mp hidx.nodup
  have hkeys {n n' : Node} {p : List String} (hp : path ++ [n.signature] <+: p)
      (hp' : path ++ [n'.signature] <+: p) : n.signature = n'.signature := by
    have := List.IsPrefix.eq_of_length (List.prefix_of_prefix_length_le hp hp' (by simp)) (by simp)
    simpa using this
  refine ⟨fun r => ?_, fun p sig => ?_, ?_, ?_⟩
  · rw [mem_flatMap_of_forall₂ (P := fun n r => Reported names base mod r ∧
      path ++ [n.signature] <+: r.path) hparts fun n part hpart r => hpart.conflicts r]
    constructor
    · rintro ⟨n, -, hr, hp⟩
      exact ⟨hr, (List.prefix_append _ _).trans hp⟩
    · rintro ⟨hr, q, hq⟩
      cases q with
      | nil =>
        rw [List.append_nil] at hq
        exact absurd (hq ▸ hopen) hr.place.2.2
      | cons sig q =>
        have hfound := hr.found.1
        rw [← hq, ← List.singleton_append, ← List.append_assoc, Tree.find?, Node.find?_append,
          Option.bind_eq_some_iff] at hfound
        obtain ⟨n, hn, -⟩ := hfound
        rw [← Tree.find?, find?_child hbase, hidx.get?_eq_some] at hn
        obtain ⟨hn, rfl⟩ := hn
        exact ⟨n, hn, hr, q, by simpa using hq⟩
  · simp only [List.mem_append, or_and_right, exists_or]
    rw [hinner, hown]
    constructor
    · rintro (⟨n, -, honly, hp⟩ | ⟨honly, rfl⟩)
      · exact ⟨honly, (List.prefix_append _ _).trans hp⟩
      · exact ⟨honly, List.prefix_rfl⟩
    · rintro ⟨honly, q, rfl⟩
      cases q with
      | nil => exact .inr ⟨honly, by simp⟩
      | cons sig' q =>
        have hopen' : OpenAt base mod (path ++ [sig']) := honly.parent.of_isPrefix ⟨q, by simp⟩
        obtain ⟨-, n, -, hn, -⟩ := openAt_concat_iff.mp hopen'
        rw [find?_child hbase, hidx.get?_eq_some] at hn
        obtain ⟨hn, rfl⟩ := hn
        exact .inl ⟨n, hn, honly, q, by simp⟩
  · refine pairwise_flatMap_of_forall₂ (P := fun n r => path ++ [n.signature] <+: r.path) hparts
      hapart (fun n part hpart r hr => ((hpart.conflicts r).mp hr).2)
      (fun n part hpart => hpart.distinct) fun n n' r r' hne hp hp' heq => ?_
    exact hne (hkeys hp (heq ▸ hp'))
  · rw [List.pairwise_append]
    refine ⟨?_, hseparate, fun a ha a' ha' heq => ?_⟩
    · refine pairwise_flatMap_of_forall₂ (P := fun n a => path ++ [n.signature] <+: a.parent) hparts
        hapart (fun n part hpart a ha => ((hpart.additions a.parent a.signature).mp
          ⟨a, ha, rfl, rfl⟩).2)
        (fun n part hpart => hpart.separate) fun n n' a a' hne hp hp' heq => ?_
      have heq : a.parent = a'.parent := (Prod.ext_iff.mp heq).1
      exact hne (hkeys hp (heq ▸ hp'))
    · -- an addition inside a child has a longer parent than one of the container itself
      obtain ⟨n, -, -, hp⟩ := (hinner _ _).mp ⟨a, ha, rfl, rfl⟩
      have hp' := ((hown _ _).mp ⟨a', ha', rfl, rfl⟩).2
      have heq : a.parent = a'.parent := (Prod.ext_iff.mp heq).1
      rw [heq, hp'] at hp
      exact absurd hp.length_le (by simp)

end Container

end Parts

section Trees

variable {names : SourceNames} {base mod : Tree}

private theorem exactAt_of_keyed {c : Changes} (hbase : base.root.Keyed) (hmod : mod.root.Keyed)
    (hb : base.root.isContainer) (hm : mod.root.isContainer) (h : diff names base mod = some c) :
    ExactAt names base mod [] c := by
  refine diff_induction (Q := fun p _ _ c => ExactAt names base mod p c) ?_ hbase hmod hb hm h
  intro path h h' b b' ns ns' index index' parts as hfind hfind' hopen hidx hidx' hparts has
  refine exactAt_of_parts hfind hfind' hopen hidx hidx' (forall₂_imp_of_mem hparts ?_) has
  intro n hn part hpart
  refine exactAt_of_childPart hopen ?_ (find?_child hfind' _) hpart
  rw [find?_child hfind, hidx.get?_eq_some]
  exact ⟨hn, rfl⟩

variable (names) in
/-- Containers of the same header have the same content when nothing at or below them is different. -/
private theorem sameContent_of_nothing {path : List String} {a b : Node} (ha : a.Keyed) (hb : b.Keyed)
    (hac : a.isContainer) (hbc : b.isContainer) (hfind : base.find? path = some a)
    (hfind' : mod.find? path = some b) (hopen : OpenAt base mod path)
    (hheader : sameHeader base.source mod.source a b)
    (hreported : ∀ r, Reported names base mod r → ¬ path <+: r.path)
    (honly : ∀ p sig, OnlyInMod base mod p sig → ¬ path <+: p) :
    sameContent base.source mod.source a b := by
  induction ha generalizing path b with
  | leaf head => cases hac
  | container head braces ns index hidx hbelow ih =>
  cases hb with
  | leaf => cases hbc
  | container head' braces' ns' index' hidx' hbelow' =>
  have hlong (sig : String) : path <+: path ++ [sig] := List.prefix_append _ _
  have htwin : ∀ n ∈ ns, ∃ twin, ChildMap.get? ⟨ns', index'⟩ n.signature = some twin ∧
      sameContent base.source mod.source n twin := by
    intro n hn
    have hin : base.find? (path ++ [n.signature]) = some n := by
      rw [find?_child hfind, hidx.get?_eq_some]
      exact ⟨hn, rfl⟩
    have hin' := find?_child hfind' n.signature
    cases htwin : ChildMap.get? ⟨ns', index'⟩ n.signature with
    | none =>
      rw [htwin] at hin'
      exact absurd (hlong _) (hreported _ (.removal path _ n hopen hin hin'))
    | some twin =>
      rw [htwin] at hin'
      refine ⟨twin, rfl, ?_⟩
      by_contra hdiffer
      rw [Bool.not_eq_true] at hdiffer
      by_cases hopen' : OpenAt base mod (path ++ [n.signature])
      · have hd := hopen'.differ hin hin'
        have hsame := ih n hn (hbelow' twin (hidx'.get?_eq_some.mp htwin).1) hd.base hd.mod hin hin'
          hopen' hd.header (fun r hr hp => hreported r hr ((hlong _).trans hp))
          (fun p sig h hp => honly p sig h ((hlong _).trans hp))
        rw [hdiffer] at hsame
        cases hsame
      · exact hreported _ (.modification path _ n twin hopen hin hin' hdiffer hopen') (hlong _)
  have hcovered : ∀ n ∈ ns', (ChildMap.mk ns index).contains n.signature := by
    intro n hn
    by_contra hlack
    refine honly path n.signature ⟨hopen, ?_, ?_⟩ List.prefix_rfl
    · rwa [find?_child hfind, ← Option.not_isSome_iff_eq_none, hidx.get?_isSome]
    · rw [find?_child hfind', (hidx'.get?_eq_some (n := n)).mpr ⟨hn, rfl⟩]
      rfl
  refine sameContent_container.mpr ⟨hheader, ?_, htwin⟩
  have hle : ns.length ≤ ns'.length := by
    refine hidx.length_le hidx' fun n hn => ?_
    obtain ⟨twin, hget, -⟩ := htwin n hn
    rw [← hidx'.get?_isSome, hget]
    rfl
  exact Nat.le_antisymm hle (hidx'.length_le hidx hcovered)

/-- In trees of the same content no child of the roots differs, and none is looked into. -/
private theorem openAt_of_sameContent (hbase : base.root.Keyed) (h : base.sameContent mod)
    {path : List String} (hopen : OpenAt base mod path) : path = [] := by
  cases path with
  | nil => rfl
  | cons sig path =>
    have hopen' : OpenAt base mod ([] ++ [sig]) := hopen.of_isPrefix ⟨path, rfl⟩
    obtain ⟨-, a, b, ha, hb, hd⟩ := openAt_concat_iff.mp hopen'
    rw [Tree.find?, Node.find?_concat] at ha hb
    obtain ⟨twin, htwin, hsame⟩ := hbase.twin h ha
    cases hb.symm.trans htwin
    exact absurd hsame (Bool.eq_false_iff.mp hd.content)

variable (names) in
private theorem nothing_of_sameContent (hbase : base.root.Keyed) (hmod : mod.root.Keyed)
    (h : base.sameContent mod) :
    (∀ r, ¬ Reported names base mod r) ∧ ∀ p sig, ¬ OnlyInMod base mod p sig := by
  constructor
  · intro r hr
    cases hr with
    | removal path sig a parent inBase absent =>
      cases openAt_of_sameContent hbase h parent
      rw [Tree.find?, Node.find?_concat] at inBase absent
      obtain ⟨twin, htwin, -⟩ := hbase.twin h inBase
      cases absent.symm.trans htwin
    | modification path sig a b parent inBase inMod differ whole =>
      cases openAt_of_sameContent hbase h parent
      rw [Tree.find?, Node.find?_concat] at inBase inMod
      obtain ⟨twin, htwin, hsame⟩ := hbase.twin h inBase
      cases inMod.symm.trans htwin
      exact absurd hsame (Bool.eq_false_iff.mp differ)
  · intro p sig honly
    cases openAt_of_sameContent hbase h honly.parent
    obtain ⟨b, hb⟩ := Option.isSome_iff_exists.mp honly.inMod
    have habsent := honly.absent
    rw [Tree.find?, Node.find?_concat] at hb habsent
    obtain ⟨twin, htwin, -⟩ := hmod.twin (hbase.sameContent_symm hmod h) hb
    cases habsent.symm.trans htwin

end Trees

section Parsed

variable {l : Language} {text text' : List Char} {base mod : Tree} {names : SourceNames} {c : Changes}
  {r : Conflict}

theorem exactAt_of_diff (hbase : l.parse text = .ok base) (hmod : l.parse text' = .ok mod)
    (h : diff names base mod = some c) : ExactAt names base mod [] c :=
  exactAt_of_keyed (Language.keyed_of_parse hbase) (Language.keyed_of_parse hmod)
    (Language.isContainer_of_parse hbase) (Language.isContainer_of_parse hmod) h

theorem ExactAt.mem_conflicts (h : ExactAt names base mod [] c) :
    r ∈ c.conflicts ↔ Reported names base mod r := by
  rw [h.conflicts, and_iff_left List.nil_prefix]

theorem ExactAt.mem_additions (h : ExactAt names base mod [] c) {p : List String} {sig : String} :
    (∃ a ∈ c.additions, a.parent = p ∧ a.signature = sig) ↔ OnlyInMod base mod p sig := by
  rw [h.additions, and_iff_left List.nil_prefix]

/-- Nothing is different exactly when the trees have the same content. -/
theorem ExactAt.isEmpty_iff (h : ExactAt names base mod [] c) (hbase : l.parse text = .ok base)
    (hmod : l.parse text' = .ok mod) : c.isEmpty ↔ base.sameContent mod := by
  have hkeyed := Language.keyed_of_parse hbase
  have hkeyed' := Language.keyed_of_parse hmod
  rw [Changes.isEmpty, Bool.and_eq_true, List.isEmpty_iff, List.isEmpty_iff]
  constructor
  · rintro ⟨hnone, hnone'⟩
    refine sameContent_of_nothing names hkeyed hkeyed' (Language.isContainer_of_parse hbase)
      (Language.isContainer_of_parse hmod) rfl rfl .root (Language.sameHeader_of_parse hbase hmod)
      (fun r hr => ?_) fun p sig honly => ?_
    · rw [← h.mem_conflicts, hnone] at hr
      cases hr
    · rw [← h.mem_additions, hnone'] at honly
      obtain ⟨a, ha, -⟩ := honly
      cases ha
  · intro hsame
    obtain ⟨hnone, hnone'⟩ := nothing_of_sameContent names hkeyed hkeyed' hsame
    constructor
    · exact List.eq_nil_iff_forall_not_mem.mpr fun r hr => hnone r (h.mem_conflicts.mp hr)
    · exact List.eq_nil_iff_forall_not_mem.mpr fun a ha =>
        hnone' _ _ (h.mem_additions.mp ⟨a, ha, rfl, rfl⟩)

/-- The diff of two parsed trees holds exactly the shallowest differences: one record for each construct
of the base that is missing or differs as a whole in an open container, one addition for each construct
that only the mod has in an open container. So no record lies below another, each record is found in
the base under its path, and the diff is empty exactly for trees of the same content. -/
theorem diff_holds_shallowest_differences (hbase : l.parse text = .ok base)
    (hmod : l.parse text' = .ok mod) (h : diff names base mod = some c) :
    ((∀ r, r ∈ c.conflicts ↔ Reported names base mod r) ∧ (c.conflicts.map Conflict.path).Nodup) ∧
      ((∀ p sig, (∃ a ∈ c.additions, a.parent = p ∧ a.signature = sig) ↔ OnlyInMod base mod p sig) ∧
        (c.additions.map fun a => (a.parent, a.signature)).Nodup) ∧
      (∀ r ∈ c.conflicts, ∀ r' ∈ c.conflicts, r.path <+: r'.path → r = r') ∧
      (∀ r ∈ c.conflicts, base.find? r.path = some r.base.node) ∧
      (c.isEmpty ↔ base.sameContent mod) := by
  have hexact := exactAt_of_diff hbase hmod h
  refine ⟨⟨fun r => hexact.mem_conflicts, List.pairwise_map.mpr hexact.distinct⟩,
    ⟨fun p sig => hexact.mem_additions, List.pairwise_map.mpr hexact.separate⟩, fun r hr r' hr' hp => ?_,
    fun r hr => ?_, hexact.isEmpty_iff hbase hmod⟩
  · exact (hexact.mem_conflicts.mp hr).eq_of_isPrefix (hexact.mem_conflicts.mp hr') hp
  · exact (hexact.mem_conflicts.mp hr).found.1

end Parsed

/-- Two texts that parse and have a diff, with something that can be computed of them. -/
theorem exists_diff {P : Tree → Tree → Changes → Bool} (l : Language) (names : SourceNames)
    (text text' : List Char)
    (h : ((l.parse text).toOption.bind fun base => (l.parse text').toOption.bind fun mod =>
      (diff names base mod).map (P base mod)) = some true) :
    ∃ base mod c, l.parse text = .ok base ∧ l.parse text' = .ok mod ∧
      diff names base mod = some c ∧ P base mod c = true := by
  obtain ⟨base, hbase, h⟩ := Option.bind_eq_some_iff.mp h
  obtain ⟨mod, hmod, h⟩ := Option.bind_eq_some_iff.mp h
  obtain ⟨c, hc, h⟩ := Option.map_eq_some_iff.mp h
  exact ⟨base, mod, c, ok_of_toOption hbase, ok_of_toOption hmod, hc, h⟩

set_option maxRecDepth 100000 in
theorem diff_of_a_changed_body : ∃ base mod c,
    Language.script.parse "sub run() { f(1); g(); }".toList = .ok base ∧
    Language.script.parse "sub run() { f(2); h(); }".toList = .ok mod ∧
    diff ⟨"run.ndf", "game", "mod"⟩ base mod = some c ∧
    c.conflicts.map Conflict.path = [["sub:run", "funCall:f"], ["sub:run", "funCall:g"]] ∧
    (∀ r, r ∈ c.conflicts ↔ Reported ⟨"run.ndf", "game", "mod"⟩ base mod r) ∧
    (∀ p sig, (∃ a ∈ c.additions, a.parent = p ∧ a.signature = sig) ↔ OnlyInMod base mod p sig) ∧
    (c.isEmpty ↔ base.sameContent mod) := by
  obtain ⟨base, mod, c, hbase, hmod, hc, hpaths⟩ := exists_diff
    (P := fun _ _ c => c.conflicts.map Conflict.path == [["sub:run", "funCall:f"], ["sub:run", "funCall:g"]])
    .script ⟨"run.ndf", "game", "mod"⟩ "sub run() { f(1); g(); }".toList "sub run() { f(2); h(); }".toList
    (by decide +kernel)
  obtain ⟨⟨hreported, -⟩, ⟨hadded, -⟩, -, -, hempty⟩ := diff_holds_shallowest_differences hbase hmod hc
  exact ⟨base, mod, c, hbase, hmod, hc, beq_iff_eq.mp hpaths, hreported, hadded, hempty⟩

end ModWeave
