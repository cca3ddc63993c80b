import ModWeave.Proofs.Tree.Argument
import ModWeave.Proofs.Tree.Eager
import ModWeave.Proofs.Tree.Language

/-! Signatures are given one construct after another, and the first of several is renamed after the fact.
It comes to the same as giving them with the whole block in view. -/
namespace ModWeave

/-- All nodes are under tags of a script. -/
def Tagged (ns : List Node) : Prop := ∀ n ∈ ns, n.kind.Tags n.signature

theorem Tagged.left {ns ms : List Node} (h : Tagged (ns ++ ms)) : Tagged ns :=
  fun n hn => h n (List.mem_append_left ms hn)

theorem Tagged.middle {ns ms : List Node} {n : Node} (h : Tagged (ns ++ n :: ms)) :
    n.kind.Tags n.signature := h n (by simp)

namespace Node

/-- Whether others with its tag are kept beside the node, as calls, `if`s and `else if`s are. -/
def repeats (n : Node) : Bool :=
  match n.kind with
  | .funCall | .conditional | .elseIf => true
  | _ => false

/-- What tells a node from others with its tag, other than its position. -/
def mark (n : Node) : Option String :=
  match n.kind with
  | .funCall => n.head.firstArg
  | _ => none

@[simp] theorem repeats_resign (n : Node) (sig : String) : (n.resign sig).repeats = n.repeats := by
  simp [repeats]

@[simp] theorem mark_resign (n : Node) (sig : String) : (n.resign sig).mark = n.mark := by
  cases n <;> rfl

theorem repeats_cases {n : Node} (h : n.repeats = true) :
    n.kind = .funCall ∨ n.kind = .conditional ∨ n.kind = .elseIf := by
  unfold repeats at h
  split at h
  · exact .inl ‹_›
  · exact .inr (.inl ‹_›)
  · exact .inr (.inr ‹_›)
  · cases h

theorem ne_replaces {n : Node} (h : n.repeats = true) : n.kind.repetition ≠ .replaces := by
  obtain hkind | hkind | hkind := repeats_cases h <;> rw [hkind] <;> decide

theorem not_repeats {n : Node} (h : n.kind.repetition = .replaces) : n.repeats = false := by
  rw [← Bool.not_eq_true]
  exact fun hrepeats => ne_replaces hrepeats h

/-- There are no elements in a script. -/
theorem replaces_of_not_repeats {n : Node} (hn : n.kind.Tags n.signature) (h : n.repeats = false) :
    n.kind.repetition = .replaces := by
  have helement := hn.ofScript
  unfold repeats at h
  cases hk : n.kind <;> simp_all [NodeKind.repetition]

end Node

section Alike

variable {tag tag' : String} {ns ms : List Node} {n m : Node}

@[simp] theorem alike_append (tag : String) (ns ms : List Node) :
    alike tag (ns ++ ms) = alike tag ns ++ alike tag ms := List.filter_append ..

theorem alike_singleton (tag : String) (n : Node) :
    alike tag [n] = if n.signature = tag then [n] else [] := by
  by_cases h : n.signature = tag <;> simp [alike, h]

theorem mem_alike : n ∈ alike tag ns ↔ n ∈ ns ∧ n.signature = tag := by simp [alike]

/-- Nodes under one tag are of one kind. -/
theorem kind_eq_of_signature (hn : n.kind.Tags n.signature) (hm : m.kind.Tags m.signature)
    (h : n.signature = m.signature) : n.kind = m.kind :=
  hn.kind_unique hm (show Marked [] from rfl) (show Marked [] from rfl) (by rw [h])

/-- What is told by its tag alone has the tag for its signature. -/
theorem eagerKey_of_not_repeats (block before : List Node) (h : n.repeats = false) :
    eagerKey block before n = n.signature := by
  unfold Node.repeats at h
  unfold eagerKey
  cases hk : n.kind <;> simp_all

/-- The key of one of several nodes under a tag, behind `before`. -/
def repeatedKey (before : List Node) (n : Node) : String :=
  freed (markedKeys n.signature ((alike n.signature before).map Node.mark))
    (n.signature ++ ":" ++ n.mark.getD (toString (alike n.signature before).length))

theorem eagerKey_of_repeats {before : List Node} (block : List Node) (hbefore : Tagged before)
    (hn : n.kind.Tags n.signature) (h : n.repeats = true) : eagerKey block before n =
      if (alike n.signature block).length = 1 then n.signature else repeatedKey before n := by
  have hkind : ∀ m ∈ alike n.signature before, m.kind = n.kind := by
    intro m hm
    rw [mem_alike] at hm
    exact kind_eq_of_signature (hbefore m hm.1) hn hm.2
  unfold eagerKey repeatedKey
  have hsole (hr : n.kind = .conditional ∨ n.kind = .elseIf) :
      (alike n.signature before).map Node.mark = List.replicate (alike n.signature before).length none ∧
        n.mark = none := by
    have hnone {m : Node} (hm : m.kind = n.kind) : m.mark = none := by
      obtain hr | hr := hr <;> rw [Node.mark, hm, hr]
    rw [← List.map_const']
    exact ⟨List.map_congr_left fun m hm => hnone (hkind m hm), hnone rfl⟩
  obtain hr | hr | hr := Node.repeats_cases h
  · have hmarks : (alike n.signature before).map Node.mark =
        (alike n.signature before).map (·.head.firstArg) :=
      List.map_congr_left fun m hm => by rw [Node.mark, hkind m hm, hr]
    have hmark : n.mark = n.head.firstArg := by rw [Node.mark, hr]
    simp only [hr, hmarks, hmark]
  · obtain ⟨hmarks, hmark⟩ := hsole (.inl hr)
    simp only [hr, hmarks, hmark, Option.getD_none, freed_position]
  · obtain ⟨hmarks, hmark⟩ := hsole (.inr hr)
    simp only [hr, hmarks, hmark, Option.getD_none, freed_position]

/-- A signature is the tag with a mark behind it or without. -/
theorem eagerKey_marked {before : List Node} (block : List Node) (hbefore : Tagged before)
    (hn : n.kind.Tags n.signature) :
    ∃ x, Marked x ∧ (eagerKey block before n).toList = n.signature.toList ++ x := by
  have hplain : ∃ x, Marked x ∧ n.signature.toList = n.signature.toList ++ x := ⟨[], rfl, by simp⟩
  cases h : n.repeats with
  | false => rwa [eagerKey_of_not_repeats block before h]
  | true =>
    rw [eagerKey_of_repeats block hbefore hn h]
    split
    · exact hplain
    · obtain ⟨x, hx⟩ := freed_eq_append (markedKeys n.signature ((alike n.signature before).map Node.mark))
        (n.signature ++ ":" ++ n.mark.getD (toString (alike n.signature before).length))
      exact ⟨_, .cons _, by rw [repeatedKey, hx, String.toList_append, String.toList_append]; simp; rfl⟩

end Alike

section Signed

variable {tag : String} {block block' before xs : List Node} {n x : Node}

theorem signedFrom_append (block before xs ys : List Node) :
    signedFrom block before (xs ++ ys) =
      signedFrom block before xs ++ signedFrom block (before ++ xs) ys := by
  induction xs generalizing before with
  | nil => simp [signedFrom]
  | cons n xs ih => simp [signedFrom, ih]

theorem signedFrom_concat (block xs : List Node) (n : Node) : signedFrom block [] (xs ++ [n]) =
    signedFrom block [] xs ++ [n.resign (eagerKey block xs n)] := by
  rw [signedFrom_append]
  rfl

theorem signedFrom_map {f : Node → Node} (h : ∀ pre m post, xs = pre ++ m :: post →
    f (m.resign (eagerKey block (before ++ pre) m)) = m.resign (eagerKey block' (before ++ pre) m)) :
    (signedFrom block before xs).map f = signedFrom block' before xs := by
  induction xs generalizing before with
  | nil => rfl
  | cons n xs ih =>
    rw [signedFrom, List.map_cons, signedFrom]
    have hn := h [] n xs rfl
    rw [List.append_nil] at hn
    rw [hn, ih fun pre m post hxs => ?_]
    rw [List.append_assoc]
    exact h (n :: pre) m post (by rw [hxs]; rfl)

theorem mem_signedFrom (hx : x ∈ signedFrom block [] xs) :
    ∃ pre m post, xs = pre ++ m :: post ∧ x = m.resign (eagerKey block pre m) := by
  induction xs using List.reverseRecOn with
  | nil => cases hx
  | append_singleton xs n ih =>
    rw [signedFrom_concat, List.mem_append, List.mem_singleton] at hx
    rcases hx with hx | rfl
    · obtain ⟨pre, m, post, rfl, rfl⟩ := ih hx
      exact ⟨pre, m, post ++ [n], by simp, rfl⟩
    · exact ⟨xs, n, [], rfl, rfl⟩

theorem resign_mem_signedFrom (block pre : List Node) (n : Node) (post : List Node) :
    n.resign (eagerKey block pre n) ∈ signedFrom block [] (pre ++ n :: post) := by
  rw [signedFrom_append]
  exact List.mem_append_right _ List.mem_cons_self

/-- A tag that others may share, with a mark behind it or without, is a signature of those only. -/
theorem eq_of_signature (hxs : Tagged xs) (hn : n.kind.Tags n.signature) (hrepeats : n.repeats = true)
    {y : List Char} (hy : Marked y) (hx : x ∈ signedFrom block [] xs)
    (hsig : x.signature.toList = n.signature.toList ++ y) : ∃ pre m post, xs = pre ++ m :: post ∧
      m.signature = n.signature ∧ x = m.resign (eagerKey block pre m) := by
  obtain ⟨pre, m, post, rfl, rfl⟩ := mem_signedFrom hx
  obtain ⟨z, hz, heq⟩ := eagerKey_marked block hxs.left hxs.middle
  rw [Node.signature_resign, heq] at hsig
  exact ⟨pre, m, post, rfl, (hn.unique hxs.middle (Node.ne_replaces hrepeats) hy hz hsig.symm).symm, rfl⟩

/-- Where several nodes share a tag, the signatures that start with it are the marked keys of theirs. -/
theorem mem_signatures_iff (hxs : Tagged xs) (hn : n.kind.Tags n.signature) (hrepeats : n.repeats = true)
    (hseveral : (alike n.signature block).length ≠ 1) {key : String} {y : List Char} (hy : Marked y)
    (hkey : key.toList = n.signature.toList ++ y) :
    key ∈ (signedFrom block [] xs).map Node.signature ↔
      key ∈ markedKeys n.signature ((alike n.signature xs).map Node.mark) := by
  induction xs using List.reverseRecOn with
  | nil => rfl
  | append_singleton xs m ih =>
    have hbefore : Tagged xs := hxs.left
    have hm : m.kind.Tags m.signature := hxs.middle
    rw [signedFrom_concat, List.map_append, List.mem_append, ih hbefore, List.map_singleton,
      List.mem_singleton, Node.signature_resign, alike_append, List.map_append, alike_singleton]
    by_cases hsig : m.signature = n.signature
    · have hkind := kind_eq_of_signature hm hn hsig
      have hr : m.repeats = true := by rwa [Node.repeats, hkind]
      rw [if_pos hsig, List.map_singleton, markedKeys_concat, List.mem_append, List.mem_singleton,
        length_markedKeys, List.length_map, eagerKey_of_repeats block hbefore hm hr, hsig,
        if_neg hseveral, repeatedKey, hsig]
    · rw [if_neg hsig, List.map_nil, List.append_nil, or_iff_left]
      rintro rfl
      obtain ⟨z, hz, heq⟩ := eagerKey_marked block hbefore hm
      exact hsig (hn.unique hm (Node.ne_replaces hrepeats) hy hz (hkey.symm.trans heq)).symm

end Signed

/-- A block that has attached the nodes `seen`: its children are theirs, each under the signature that it
has with all of `seen` in view, and it remembers the tags that several of them share. -/
structure Block.Tracks (b : Block) (seen : List Node) : Prop where
  indexed : b.children.Indexed
  nodes : b.children.nodes = latest (signed seen)
  repeated : ∀ tag, b.repeated.contains tag = true ↔ 2 ≤ (alike tag (seen.filter Node.repeats)).length

namespace Block

variable {b : Block} {seen : List Node} {n : Node}

theorem tracks_empty : empty.Tracks [] := ⟨ChildMap.indexed_empty, rfl, by simp [empty, alike]⟩

/-- One more node behind the others changes the signature of one of them at most: of the only one with its
tag. -/
private theorem eagerKey_concat {pre post : List Node} {m : Node} (hseen : Tagged (pre ++ m :: post))
    (hn : n.kind.Tags n.signature) (h : m.signature = n.signature → n.repeats = true →
      (alike n.signature (pre ++ m :: post)).length ≠ 1) :
    eagerKey (pre ++ m :: post ++ [n]) pre m = eagerKey (pre ++ m :: post) pre m := by
  cases hm : m.repeats with
  | false => rw [eagerKey_of_not_repeats _ _ hm, eagerKey_of_not_repeats _ _ hm]
  | true =>
    rw [eagerKey_of_repeats _ hseen.left hseen.middle hm, eagerKey_of_repeats _ hseen.left hseen.middle hm,
      alike_append _ (pre ++ m :: post), alike_singleton]
    by_cases hsig : m.signature = n.signature
    · have hr : n.repeats = true := by
        rwa [Node.repeats, ← kind_eq_of_signature hseen.middle hn hsig]
      have hseveral := h hsig hr
      have hmem : m ∈ alike n.signature (pre ++ m :: post) := mem_alike.mpr ⟨by simp, hsig⟩
      have hpos := List.length_pos_of_mem hmem
      rw [if_pos hsig.symm, List.length_append, List.length_singleton, hsig, if_neg hseveral, if_neg]
      omega
    · rw [if_neg (Ne.symm hsig), List.append_nil]

private theorem signedFrom_concat_eq (hseen : Tagged seen) (hn : n.kind.Tags n.signature)
    (h : n.repeats = true → (alike n.signature seen).length ≠ 1) :
    signedFrom (seen ++ [n]) [] seen = signed seen := by
  refine (List.map_id _).symm.trans (signedFrom_map fun pre m post hsplit => ?_)
  subst hsplit
  rw [id, List.nil_append, eagerKey_concat hseen hn fun _ => h]

/-- What there is once the signatures of `seen` are as they will be next to `n`: the signature of `n` is
free then, as it is given with the whole block in view. -/
private structure Staged (seen : List Node) (n : Node) (key : String) (b : Block) : Prop where
  indexed : b.children.Indexed
  nodes : b.children.nodes = latest (signedFrom (seen ++ [n]) [] seen)
  repeated : ∀ tag, b.repeated.contains tag = true ↔
    2 ≤ (alike tag ((seen ++ [n]).filter Node.repeats)).length
  key : key = eagerKey (seen ++ [n]) seen n

private theorem Staged.tracks {key : String} (h : Staged seen n key b) :
    Tracks { b with children := (b.children.insert (n.resign key)).2 } (seen ++ [n]) := by
  obtain ⟨hidx, hnodes⟩ := h.indexed.insert_latest h.nodes (n.resign key)
  refine ⟨hidx, ?_, h.repeated⟩
  rw [hnodes, h.key, signed, signedFrom_concat]

private theorem alike_filter_repeats (hseen : Tagged seen) (hn : n.kind.Tags n.signature)
    (hr : n.repeats = true) : alike n.signature (seen.filter Node.repeats) = alike n.signature seen := by
  rw [alike, List.filter_filter, alike]
  refine List.filter_congr fun m hm => ?_
  cases hsig : m.signature == n.signature with
  | false => rfl
  | true =>
    rw [Bool.true_and, Node.repeats, kind_eq_of_signature (hseen m hm) hn (by simpa using hsig)]
    exact hr

private theorem length_alike_concat (hr : n.repeats = true) (tag : String) :
    (alike tag ((seen ++ [n]).filter Node.repeats)).length =
      (alike tag (seen.filter Node.repeats)).length + if n.signature = tag then 1 else 0 := by
  rw [List.filter_append, alike_append, List.filter_singleton, hr, cond_true, alike_singleton,
    List.length_append]
  split <;> rfl

section Several

variable {m : ChildMap Node} (hidx : m.Indexed)
  (hnodes : m.nodes = latest (signedFrom (seen ++ [n]) [] seen)) (hseen : Tagged seen)
  (hn : n.kind.Tags n.signature) (hr : n.repeats = true) (hsome : (alike n.signature seen).length ≠ 0)

include hsome in
private theorem several : (alike n.signature (seen ++ [n])).length ≠ 1 := by
  rw [alike_append, alike_singleton, if_pos rfl, List.length_append, List.length_singleton]
  omega

include hidx hnodes hseen hn hr hsome in
/-- Among several with its tag a node gets the marked key that is free. -/
private theorem freeKey_of_several :
    m.freeKey (n.signature ++ ":" ++ n.mark.getD (toString (alike n.signature seen).length)) =
      eagerKey (seen ++ [n]) seen n := by
  rw [eagerKey_of_repeats _ hseen hn hr, if_neg (several hsome), repeatedKey]
  refine hidx.freeKey_eq_freed fun x ⟨y, hy⟩ => ?_
  rw [hidx.contains_of_nodes hnodes]
  rw [String.toList_append, String.toList_append, List.append_assoc, List.append_assoc] at hy
  exact mem_signatures_iff hseen hn hr (several hsome) (.cons _) hy.symm

include hidx hnodes hseen hn hr hsome in
/-- As many signatures start with a shared tag as there are nodes that share it. -/
private theorem countPrefixed_of_several :
    m.countPrefixed (n.signature ++ ":") = (alike n.signature seen).length := by
  have hperm : ((m.nodes.filter fun x => (n.signature ++ ":").toList.isPrefixOf x.signature.toList).map
      Node.signature).Perm (markedKeys n.signature ((alike n.signature seen).map Node.mark)) := by
    refine (List.perm_ext_iff_of_nodup ?_ (nodup_markedKeys _ _)).mpr fun key => ?_
    · exact hidx.nodup.sublist (List.filter_sublist.map _)
    · have hiff {x : List Char} (hx : key.toList = n.signature.toList ++ ':' :: x) :=
        mem_signatures_iff hseen hn hr (several hsome) (.cons x) hx
      constructor
      · intro hkey
        obtain ⟨x, hx, rfl⟩ := List.mem_map.mp hkey
        obtain ⟨hx, hfront⟩ := List.mem_filter.mp hx
        obtain ⟨y, hy⟩ := List.isPrefixOf_iff_prefix.mp hfront
        refine (hiff (x := y) ?_).mp (List.mem_map_of_mem (mem_of_mem_latest (hnodes ▸ hx)))
        rw [← hy, String.toList_append, List.append_assoc]
        rfl
      · intro hkey
        obtain ⟨y, hy⟩ := mark_of_mem_markedKeys hkey
        have hmem := mem_signatures_latest.mpr ((hiff hy).mpr hkey)
        rw [← hnodes] at hmem
        obtain ⟨x, hx, rfl⟩ := List.mem_map.mp hmem
        refine List.mem_map_of_mem (List.mem_filter.mpr ⟨hx, List.isPrefixOf_iff_prefix.mpr ⟨y, ?_⟩⟩)
        rw [hy, String.toList_append, List.append_assoc]
        rfl
  have hlength := hperm.length_eq
  rw [List.length_map, length_markedKeys, List.length_map] at hlength
  exact hlength

end Several

section Sole

variable {d : Node} (hseen : Tagged seen) (hn : n.kind.Tags n.signature) (hr : n.repeats = true)
  (hd : alike n.signature seen = [d])

include hd in
private theorem mem_of_sole : d ∈ seen ∧ d.signature = n.signature :=
  mem_alike.mp (by rw [hd]; simp)

include hd in
private theorem eq_of_sole {x : Node} (hx : x ∈ seen) (hsig : x.signature = n.signature) : x = d := by
  have hmem : x ∈ alike n.signature seen := mem_alike.mpr ⟨hx, hsig⟩
  rwa [hd, List.mem_singleton] at hmem

include hseen hn hd in
private theorem kind_of_sole : d.kind = n.kind :=
  kind_eq_of_signature (hseen d (mem_of_sole hd).1) hn (mem_of_sole hd).2

include hseen hn hr hd in
/-- The only one with its tag keeps the tag plain. -/
private theorem eagerKey_of_sole {pre post : List Node} (hsplit : seen = pre ++ d :: post) :
    eagerKey seen pre d = n.signature := by
  have hdr : d.repeats = true := by rwa [Node.repeats, kind_of_sole hseen hn hd]
  have hsig := (mem_of_sole hd).2
  subst hsplit
  rw [eagerKey_of_repeats _ hseen.left hseen.middle hdr, hsig, if_pos (by rw [hd]; rfl)]

include hseen hn hr hd in
/-- The plain tag and all that is marked under it can only be the signature of the one that has the tag, which
is plain still. -/
private theorem eq_resign_of_sole {x : Node} {y : List Char} (hy : Marked y) (hx : x ∈ signed seen)
    (hsig : x.signature.toList = n.signature.toList ++ y) : x = d.resign n.signature := by
  obtain ⟨pre, m, post, hsplit, hm, rfl⟩ := eq_of_signature hseen hn hr hy hx hsig
  obtain rfl : m = d := eq_of_sole hd (by simp [hsplit]) hm
  rw [eagerKey_of_sole hseen hn hr hd hsplit]

include hseen hn hr hd in
private theorem resign_mem_of_sole : d.resign n.signature ∈ signed seen := by
  obtain ⟨pre, post, hsplit⟩ := List.append_of_mem (mem_of_sole hd).1
  have hmem := resign_mem_signedFrom seen pre d post
  rwa [eagerKey_of_sole hseen hn hr hd hsplit, ← hsplit] at hmem

include hseen hn hr hd in
private theorem free_of_sole (mark : String) :
    n.signature ++ ":" ++ mark ∉ (signed seen).map Node.signature := by
  intro hmem
  obtain ⟨x, hx, hsig⟩ := List.mem_map.mp hmem
  have hkey : x.signature.toList = n.signature.toList ++ ':' :: mark.toList := by
    rw [hsig, String.toList_append, String.toList_append, List.append_assoc]
    rfl
  have hx := eq_resign_of_sole hseen hn hr hd (.cons mark.toList) hx hkey
  rw [hx, Node.signature_resign] at hkey
  simp at hkey

include hseen hn hr hd in
/-- Next to a second node with its tag the first one is marked, and the others keep their signatures. -/
private theorem signed_of_sole :
    (signed seen).map (fun x => if x.signature = n.signature then
      x.resign (n.signature ++ ":" ++ d.mark.getD "0") else x) = signedFrom (seen ++ [n]) [] seen := by
  refine signedFrom_map fun pre x post hsplit => ?_
  rw [List.nil_append]
  by_cases hx : x.signature = n.signature
  · obtain rfl : x = d := eq_of_sole hd (by simp [hsplit]) hx
    have hxr : x.repeats = true := by rwa [Node.repeats, kind_of_sole hseen hn hd]
    rw [eagerKey_of_sole hseen hn hr hd hsplit, if_pos (Node.signature_resign ..), Node.resign_resign]
    have hone : (alike n.signature seen).length = 1 := by rw [hd]; rfl
    subst hsplit
    have hnone : alike n.signature pre = [] := by
      rw [alike_append, ← List.singleton_append, alike_append, alike_singleton, if_pos hx,
        List.length_append, List.length_append, List.length_singleton] at hone
      exact List.length_eq_zero_iff.mp (by omega)
    rw [eagerKey_of_repeats _ hseen.left hseen.middle hxr, hx, if_neg (several (by omega)), repeatedKey, hx,
      hnone]
    rfl
  · subst hsplit
    obtain ⟨y, hy, hsig⟩ := eagerKey_marked (pre ++ x :: post) hseen.left hseen.middle
    rw [eagerKey_concat hseen hn fun he => absurd he hx, if_neg]
    intro he
    rw [Node.signature_resign] at he
    refine hx (hn.unique hseen.middle (Node.ne_replaces hr) (x := []) rfl hy ?_).symm
    rw [List.append_nil, ← he, hsig]

end Sole

section Stages

variable (h : b.Tracks seen) (hseen : Tagged seen) (hn : n.kind.Tags n.signature) (hr : n.repeats = true)

include h hseen hn hr in
private theorem contains_iff_several :
    b.repeated.contains n.signature = true ↔ 2 ≤ (alike n.signature seen).length := by
  rw [h.repeated, alike_filter_repeats hseen hn hr]

include h hseen hn hr in
private theorem staged_first (hnone : (alike n.signature seen).length = 0) :
    b.children.get? n.signature = none ∧ Staged seen n (b.children.freeKey n.signature) b := by
  have hnodes : b.children.nodes = latest (signedFrom (seen ++ [n]) [] seen) := by
    rw [signedFrom_concat_eq hseen hn fun _ => by omega]
    exact h.nodes
  have hfree : b.children.contains n.signature = false := by
    rw [← Bool.not_eq_true, h.indexed.contains_of_nodes hnodes]
    intro hmem
    obtain ⟨x, hx, hsig⟩ := List.mem_map.mp hmem
    obtain ⟨pre, m, post, rfl, hm, -⟩ := eq_of_signature hseen hn hr (y := []) rfl hx (by simp [hsig])
    have := List.length_pos_of_mem (mem_alike.mpr ⟨by simp, hm⟩ : m ∈ alike n.signature (pre ++ m :: post))
    omega
  refine ⟨?_, h.indexed, hnodes, fun tag => ?_, ?_⟩
  · rw [← Option.isNone_iff_eq_none, ← Option.isSome_eq_false_iff, ← Bool.not_eq_true,
      h.indexed.get?_isSome, hfree]
    exact Bool.false_ne_true
  · rw [h.repeated, length_alike_concat hr]
    split
    · rename_i htag
      rw [← htag, alike_filter_repeats hseen hn hr]
      omega
    · rfl
  · rw [ChildMap.freeKey, hfree, if_neg Bool.false_ne_true, eagerKey_of_repeats _ hseen hn hr, if_pos]
    rw [alike_append, alike_singleton, if_pos rfl, List.length_append, hnone]
    rfl

include h hseen hn hr in
private theorem get_of_sole {d : Node} (hd : alike n.signature seen = [d]) :
    b.children.get? n.signature = some (d.resign n.signature) := by
  obtain ⟨e, he⟩ : ∃ e, b.children.get? n.signature = some e := by
    rw [← Option.isSome_iff_exists, h.indexed.get?_isSome, h.indexed.contains_of_nodes h.nodes]
    exact List.mem_map.mpr ⟨_, resign_mem_of_sole hseen hn hr hd, Node.signature_resign ..⟩
  have hfound := h.indexed.get?_eq_some.mp he
  have hmem : e ∈ signed seen := mem_of_mem_latest (h.nodes ▸ hfound.1)
  rw [he, eq_resign_of_sole hseen hn hr hd (y := []) rfl hmem (by rw [hfound.2, List.append_nil])]

include h hseen hn hr in
private theorem staged_second (hone : (alike n.signature seen).length = 1) :
    ∃ e, b.children.get? n.signature = some e ∧ e.kind = n.kind ∧
      Staged seen n ((b.retag n.signature (e.mark.getD "0")).children.freeKey
        (n.signature ++ ":" ++ n.mark.getD "1")) (b.retag n.signature (e.mark.getD "0")) := by
  obtain ⟨d, hd⟩ := List.length_eq_one_iff.mp hone
  have hget := get_of_sole h hseen hn hr hd
  refine ⟨_, hget, by rw [Node.kind_resign, kind_of_sole hseen hn hd], ?_⟩
  rw [Node.mark_resign]
  have hfree := free_of_sole hseen hn hr hd (d.mark.getD "0")
  have hfree' : b.children.contains (n.signature ++ ":" ++ d.mark.getD "0") = false := by
    rwa [← Bool.not_eq_true, h.indexed.contains_of_nodes h.nodes]
  obtain ⟨m, hm, hmnodes⟩ := h.indexed.rekey_nodes (h.indexed.get?_isSome.mp (by rw [hget]; rfl)) hfree'
  have hretag : b.retag n.signature (d.mark.getD "0") = ⟨m, b.repeated ++ [n.signature]⟩ := by
    rw [retag, ChildMap.freeKey, hfree', if_neg Bool.false_ne_true, hm]
    rfl
  have hidx := (h.indexed.rekey hm).1
  have hnodes : m.nodes = latest (signedFrom (seen ++ [n]) [] seen) := by
    rw [hmnodes, h.nodes, ← latest_rename hfree, signed_of_sole hseen hn hr hd]
  rw [hretag]
  refine ⟨hidx, hnodes, fun tag => ?_, ?_⟩
  · rw [length_alike_concat hr, List.contains_eq_mem, decide_eq_true_eq, List.mem_append,
      List.mem_singleton]
    have := h.repeated tag
    rw [List.contains_eq_mem, decide_eq_true_eq] at this
    rw [this]
    split
    · rename_i htag
      rw [← htag, alike_filter_repeats hseen hn hr]
      simp [hone]
    · rename_i htag
      simp [Ne.symm htag]
  · have := freeKey_of_several hidx hnodes hseen hn hr (by omega)
    rw [hone] at this
    exact this

include h hseen hn hr in
private theorem staged_later (hseveral : 2 ≤ (alike n.signature seen).length) :
    Staged seen n (b.children.freeKey (n.signature ++ ":" ++
      n.mark.getD (toString (b.children.countPrefixed (n.signature ++ ":"))))) b := by
  have hnodes : b.children.nodes = latest (signedFrom (seen ++ [n]) [] seen) := by
    rw [signedFrom_concat_eq hseen hn fun _ => by omega]
    exact h.nodes
  refine ⟨h.indexed, hnodes, fun tag => ?_, ?_⟩
  · rw [h.repeated, length_alike_concat hr]
    split
    · rename_i htag
      rw [← htag, alike_filter_repeats hseen hn hr]
      omega
    · rfl
  · rw [countPrefixed_of_several h.indexed hnodes hseen hn hr (by omega),
      freeKey_of_several h.indexed hnodes hseen hn hr (by omega)]

include h hseen hn in
private theorem staged_plain (hr : n.repeats = false) : Staged seen n n.signature b := by
  refine ⟨h.indexed, ?_, fun tag => ?_, (eagerKey_of_not_repeats _ _ hr).symm⟩
  · rw [signedFrom_concat_eq hseen hn fun hr' => by rw [hr] at hr'; cases hr']
    exact h.nodes
  · rw [h.repeated, List.filter_append, List.filter_singleton, hr, cond_false, List.append_nil]

include h hseen hn hr in
private theorem staged_markedKey {earlierMark : Node → Option String}
    (hearlier : ∀ e : Node, e.kind = n.kind → earlierMark e = e.mark) :
    Staged seen n ((b.markedKey n.signature n.mark earlierMark).2.children.freeKey
        (b.markedKey n.signature n.mark earlierMark).1)
      (b.markedKey n.signature n.mark earlierMark).2 := by
  have hcontains := contains_iff_several h hseen hn hr
  rw [markedKey]
  obtain hnone | hone | hseveral : (alike n.signature seen).length = 0 ∨
      (alike n.signature seen).length = 1 ∨ 2 ≤ (alike n.signature seen).length := by omega
  · obtain ⟨hget, hstaged⟩ := staged_first h hseen hn hr hnone
    rw [if_neg (by rw [hcontains]; omega), hget]
    exact hstaged
  · obtain ⟨e, hget, hkind, hstaged⟩ := staged_second h hseen hn hr hone
    rw [if_neg (by rw [hcontains]; omega), hget]
    simp only [hearlier e hkind]
    exact hstaged
  · rw [if_pos (hcontains.mpr hseveral)]
    exact staged_later h hseen hn hr hseveral

include h hseen hn in
/-- One more node is attached under the signature that it has next to all before it, and the others are
under theirs. -/
theorem tracks_attach : (b.attach n).Tracks (seen ++ [n]) := by
  suffices hstaged : Staged seen n (b.key n).1 (b.key n).2 from hstaged.tracks
  unfold key
  cases hr : n.repeats with
  | false =>
    simp only [Node.replaces_of_not_repeats hn hr]
    exact staged_plain h hseen hn hr
  | true =>
    have hposition (hkind : n.kind = .conditional ∨ n.kind = .elseIf) : Staged seen n
        ((b.markedKey n.signature none fun _ => none).2.children.freeKey
          (b.markedKey n.signature none fun _ => none).1)
        (b.markedKey n.signature none fun _ => none).2 := by
      have hmark (e : Node) (he : e.kind = n.kind) : none = e.mark := by
        obtain hkind | hkind := hkind <;> rw [Node.mark, he, hkind]
      have hstaged := staged_markedKey h hseen hn hr hmark
      rwa [← hmark n rfl] at hstaged
    obtain hkind | hkind | hkind := Node.repeats_cases hr
    · have hmark (e : Node) (he : e.kind = n.kind) : e.head.firstArg = e.mark := by
        rw [Node.mark, he, hkind]
      simp only [hkind, NodeKind.repetition, hmark n rfl]
      exact staged_markedKey h hseen hn hr hmark
    · simp only [hkind, NodeKind.repetition]
      exact hposition (.inl hkind)
    · simp only [hkind, NodeKind.repetition]
      exact hposition (.inr hkind)

end Stages

/-- Attaching a row of constructs signs all of them with the whole row in view. -/
theorem tracks_attachAll {cs : List Construct} (h : b.Tracks seen)
    (hall : Tagged (seen ++ cs.map Construct.node)) :
    (attachAll b cs).Tracks (seen ++ cs.map Construct.node) := by
  induction cs generalizing b seen with
  | nil => simpa [attachAll] using h
  | cons c cs ih =>
    have := ih (tracks_attach h hall.left hall.middle) (by simpa using hall)
    simpa [attachAll] using this

end Block

/-- The children of a block, when signatures are given with the whole block in view. -/
def eagerChildren (block : List Construct) : List Node := latest (signed (block.map Construct.node))

theorem eagerChildren_eq {block : List Construct} (h : Tagged (block.map Construct.node)) :
    (attachAll .empty block).children.nodes = eagerChildren block :=
  (Block.tracks_attachAll Block.tracks_empty h).nodes

/-- A node that may repeat has a signature that none before it has. -/
private theorem ne_of_signed_before {block before : List Node} {n x : Node} (h : Tagged (before ++ [n]))
    (hsub : (before ++ [n]).Sublist block) (hx : x ∈ signedFrom block [] before)
    (hr : x.repeats = true ∨ n.repeats = true) : x.signature ≠ eagerKey block before n := by
  intro hsig
  have hn : n.kind.Tags n.signature := h.middle
  obtain ⟨z, hz, heq⟩ := eagerKey_marked block h.left hn
  obtain ⟨hnr, pre, m, post, hsplit, hm⟩ : n.repeats = true ∧
      ∃ pre m post, before = pre ++ m :: post ∧ m.signature = n.signature := by
    obtain ⟨pre, m, post, rfl, rfl⟩ := mem_signedFrom hx
    have hmtags : m.kind.Tags m.signature := h.left.middle
    obtain ⟨y, hy, heq'⟩ := eagerKey_marked block h.left.left hmtags
    rw [Node.signature_resign] at hsig
    rw [← hsig, heq'] at heq
    have hkind := hmtags.kind_unique hn hy hz heq
    have hnr : n.repeats = true := by
      rwa [Node.repeats_resign, Node.repeats, hkind, ← Node.repeats, or_self] at hr
    exact ⟨hnr, pre, m, post, rfl, (hn.unique hmtags (Node.ne_replaces hnr) hz hy heq.symm).symm⟩
  have hseveral : (alike n.signature block).length ≠ 1 := by
    have hle := ((hsub.filter (·.signature == n.signature)).length_le)
    have hmem : m ∈ alike n.signature before := mem_alike.mpr ⟨by simp [hsplit], hm⟩
    have hpos := List.length_pos_of_mem hmem
    change (alike n.signature (before ++ [n])).length ≤ (alike n.signature block).length at hle
    rw [alike_append, alike_singleton, if_pos rfl, List.length_append, List.length_singleton] at hle
    omega
  have hmem := (mem_signatures_iff h.left hn hnr hseveral hz (by rw [hsig, heq])).mp
    (List.mem_map_of_mem hx)
  rw [hsig, eagerKey_of_repeats block h.left hn hnr, if_neg hseveral] at hmem
  exact freed_not_mem _ _ hmem

/-- No other node has the signature of one that may repeat. -/
theorem signed_separate {ns : List Node} (h : Tagged ns) : (signed ns).Pairwise fun x y =>
    x.repeats = true ∨ y.repeats = true → x.signature ≠ y.signature := by
  suffices hsub : ∀ xs : List Node, Tagged xs → xs.Sublist ns → (signedFrom ns [] xs).Pairwise fun x y =>
      x.repeats = true ∨ y.repeats = true → x.signature ≠ y.signature from hsub ns h (List.Sublist.refl ns)
  intro xs hxs hsub
  induction xs using List.reverseRecOn with
  | nil => exact .nil
  | append_singleton xs n ih =>
    rw [signedFrom_concat]
    refine List.pairwise_append.mpr ⟨ih hxs.left ((List.sublist_append_left xs [n]).trans hsub),
      List.pairwise_singleton .., fun x hx y hy hr => ?_⟩
    rw [List.mem_singleton] at hy
    rw [hy, Node.repeats_resign] at hr
    rw [hy, Node.signature_resign]
    exact ne_of_signed_before hxs hsub hx hr

/-- The blocks of a file: the file itself and, at every depth, what a construct has in its braces, an `if`
its clauses too. -/
inductive BlockIn (file : List Construct) : List Construct → Prop
  | file : BlockIn file file
  | inside {outer body : List Construct} {kind : NodeKind} {tag : String} {tokens : Extent} {line : Nat}
      {braces : Braces} (h : BlockIn file outer) (hc : .block kind tag tokens line braces body ∈ outer) :
      BlockIn file body

theorem BlockIn.told {file block : List Construct} (h : BlockIn file block)
    (hfile : ∀ c ∈ file, c.Told) : ∀ c ∈ block, c.Told := by
  induction h with
  | file => exact hfile
  | inside _ hc ih =>
    cases ih _ hc
    assumption

theorem BlockIn.calls {s : Source} {file block : List Construct} (h : BlockIn file block)
    (hfile : ∀ c ∈ file, Script.Calls s c) : ∀ c ∈ block, Script.Calls s c := by
  induction h with
  | file => exact hfile
  | inside _ hc ih =>
    cases ih _ hc
    assumption

theorem Construct.Told.tags {c : Construct} (h : c.Told) : c.node.kind.Tags c.node.signature := by
  cases h with
  | leaf _ _ _ _ _ tags => exact tags
  | block _ _ _ _ _ _ tags => exact tags

/-- In every block of a script the children are those that come of signatures given with the whole block in
view, and each call, `if` and `else if` is a child of its own. A call is told from others of its name by the
text of its first argument. -/
theorem children_are_eager {text : List Char} {t : Tree} (h : Script.parse text = .ok t) :
    ∃ cs, Script.statements t.source.tokens.length t.source.tokens = .ok cs ∧
      t.root.children?.map ChildMap.nodes = some (eagerChildren cs) ∧
      ∀ block, BlockIn cs block →
        (∀ kind tag tokens line braces, (Construct.block kind tag tokens line braces block).node.children?.map
          ChildMap.nodes = some (eagerChildren block)) ∧
        Tagged (block.map Construct.node) ∧
        ((eagerChildren block).map Node.signature).Nodup ∧
        (eagerChildren block).filter Node.repeats =
          (signed (block.map Construct.node)).filter Node.repeats ∧
        ∀ n ∈ block.map Construct.node, n.kind = .funCall →
          Script.CallAt (t.source.lexemes.drop n.tokens.first) n.signature n.head.firstArg := by
  obtain ⟨s, cs, hs, hcs, rfl⟩ := (Language.parse_iff (l := .script)).mp h
  have hfile := Script.told_of_statements hs hcs
  have htagged {block : List Construct} (hblock : BlockIn cs block) : Tagged (block.map Construct.node) := by
    intro n hn
    obtain ⟨c, hc, rfl⟩ := List.mem_map.mp hn
    exact (hblock.told hfile c hc).tags
  refine ⟨cs, hcs, congrArg some (eagerChildren_eq (htagged .file)), fun block hblock => ?_⟩
  have heager := eagerChildren_eq (htagged hblock)
  refine ⟨fun _ _ _ _ _ => congrArg some heager, htagged hblock, ?_,
    filter_latest (signed_separate (htagged hblock)), fun n hn hkind => ?_⟩
  · rw [← heager]
    exact (Block.tracks_attachAll Block.tracks_empty (htagged hblock)).indexed.nodup
  · obtain ⟨c, hc, rfl⟩ := List.mem_map.mp hn
    exact (hblock.calls (Script.calls_of_statements hcs) c hc).callAt hkind

set_option maxRecDepth 100000 in
theorem children_of_colliding_calls : ∃ t cs,
    Script.parse ("f(a + 1, 2); f(a + 1); if (a) \x7b\x7d else if (b) \x7b\x7d else if (c) \x7b\x7d " ++
      "f(); g(2); if (b) \x7b\x7d").toList = .ok t ∧
    t.root.children?.map ChildMap.signatures =
      some ["funCall:f:a+1", "funCall:f:a+1#1", "if:0", "funCall:f:2", "funCall:g", "if:1"] ∧
    ((t.find? ["if:0"]).bind Node.children?).map ChildMap.signatures = some ["elseif:0", "elseif:1"] ∧
    t.root.children?.map ChildMap.nodes = some (eagerChildren cs) ∧
    ∀ block, BlockIn cs block → (eagerChildren block).filter Node.repeats =
      (signed (block.map Construct.node)).filter Node.repeats := by
  let text := ("f(a + 1, 2); f(a + 1); if (a) \x7b\x7d else if (b) \x7b\x7d else if (c) \x7b\x7d " ++
    "f(); g(2); if (b) \x7b\x7d").toList
  obtain ⟨t, ht, hsigs, hclauses⟩ : ∃ t, Script.parse text = .ok t ∧
      t.root.children?.map ChildMap.signatures =
        some ["funCall:f:a+1", "funCall:f:a+1#1", "if:0", "funCall:f:2", "funCall:g", "if:1"] ∧
      ((t.find? ["if:0"]).bind Node.children?).map ChildMap.signatures =
        some ["elseif:0", "elseif:1"] := by
    have hsome : (Script.parse text).toOption.map (fun t => (t.root.children?.map ChildMap.signatures,
        ((t.find? ["if:0"]).bind Node.children?).map ChildMap.signatures)) =
        some (some ["funCall:f:a+1", "funCall:f:a+1#1", "if:0", "funCall:f:2", "funCall:g", "if:1"],
          some ["elseif:0", "elseif:1"]) := by
      decide +kernel
    obtain ⟨t, ht, hboth⟩ := Option.map_eq_some_iff.mp hsome
    obtain ⟨hsigs, hclauses⟩ := Prod.mk.inj hboth
    exact ⟨t, ok_of_toOption ht, hsigs, hclauses⟩
  obtain ⟨cs, -, hroot, hblocks⟩ := children_are_eager ht
  exact ⟨t, cs, ht, hsigs, hclauses, hroot, fun block hblock => (hblocks block hblock).2.2.2.1⟩

end ModWeave
