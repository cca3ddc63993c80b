import ModWeave.Proofs.Tree.Attachment

/-! Sameness of content is an equivalence relation on nodes whose children are found under their own
signatures. -/
namespace ModWeave

variable {s t u : Source}

/-- A child that has a twin under its own signature, and the same content there. -/
theorem allHaveTwin_iff {ns : List Node} {others : ChildMap Node} :
    allHaveTwin s t ns others ↔
      ∀ n ∈ ns, ∃ twin, others.get? n.signature = some twin ∧ sameContent s t n twin := by
  induction ns with
  | nil => simp [allHaveTwin]
  | cons n ns ih =>
    simp only [allHaveTwin, Bool.and_eq_true, ih, List.forall_mem_cons]
    cases others.get? n.signature <;> simp

/-- Containers have the same content when their headers agree, and their children one by one. -/
theorem sameContent_container {h h' : Head} {b b' : Option Braces} {ns ns' : List Node}
    {index index' : List (String × Nat)} :
    sameContent s t (.container h b ns index) (.container h' b' ns' index') ↔
      sameHeader s t (.container h b ns index) (.container h' b' ns' index') ∧
        ns.length = ns'.length ∧ ∀ n ∈ ns, ∃ twin,
          ChildMap.get? ⟨ns', index'⟩ n.signature = some twin ∧ sameContent s t n twin := by
  rw [sameContent, Bool.and_eq_true, Bool.and_eq_true, beq_iff_eq, allHaveTwin_iff, and_assoc]

/-- Signatures are not repeated, so a map that has them all has as many at least. -/
theorem ChildMap.Indexed.subperm {m m' : ChildMap Node} (h : m.Indexed) (h' : m'.Indexed)
    (hsub : ∀ n ∈ m.nodes, m'.contains n.signature) : m.signatures.Subperm m'.signatures := by
  refine h.nodup.subperm fun sig hsig => ?_
  obtain ⟨n, hn, rfl⟩ := List.mem_map.mp hsig
  exact h'.contains_iff.mp (hsub n hn)

theorem ChildMap.Indexed.length_le {m m' : ChildMap Node} (h : m.Indexed) (h' : m'.Indexed)
    (hsub : ∀ n ∈ m.nodes, m'.contains n.signature) : m.nodes.length ≤ m'.nodes.length := by
  simpa [signatures] using (h.subperm h' hsub).length_le

/-- Of two maps of the same size, one that lacks no signature of the other has no other signatures. -/
theorem ChildMap.Indexed.covered {m m' : ChildMap Node} (h : m.Indexed) (h' : m'.Indexed)
    (hlen : m.nodes.length = m'.nodes.length)
    (hsub : ∀ n ∈ m.nodes, m'.contains n.signature) : ∀ n ∈ m'.nodes, m.contains n.signature := by
  have hperm : m.signatures.Perm m'.signatures :=
    (h.subperm h' hsub).perm_of_length_le (by simp [signatures, hlen])
  intro n hn
  rw [h.contains_iff, hperm.mem_iff]
  exact List.mem_map_of_mem hn

theorem sameHeader_symm {a b : Node} (h : sameHeader s t a b) : sameHeader t s b a := by
  simp only [sameHeader, sameTokens, beq_iff_eq] at h ⊢
  exact h.symm

theorem sameHeader_trans {a b c : Node} (h : sameHeader s t a b) (k : sameHeader t u b c) :
    sameHeader s u a c := by
  simp only [sameHeader, sameTokens, beq_iff_eq] at h k ⊢
  exact h.trans k

namespace Node.Keyed

variable {a b c : Node}

theorem sameContent_refl (h : a.Keyed) : sameContent s s a a := by
  induction h with
  | leaf head => simp [sameContent, sameTokens]
  | container head braces nodes index indexed _ ih =>
    rw [sameContent_container]
    refine ⟨by simp [sameHeader, sameTokens], rfl, fun n hn => ?_⟩
    exact ⟨n, indexed.get?_eq_some.mpr ⟨hn, rfl⟩, ih n hn⟩

theorem sameContent_symm (ha : a.Keyed) (hb : b.Keyed) (h : sameContent s t a b) :
    sameContent t s b a := by
  induction ha generalizing b with
  | leaf head =>
    cases hb with
    | leaf head' =>
      simp only [sameContent, sameTokens, beq_iff_eq] at h ⊢
      exact h.symm
    | container => simp [sameContent] at h
  | container head braces nodes index indexed below ih =>
    cases hb with
    | leaf head' => simp [sameContent] at h
    | container head' braces' nodes' index' indexed' below' =>
      rw [sameContent_container] at h ⊢
      obtain ⟨hheader, hlen, htwin⟩ := h
      have hcovered := indexed.covered indexed' hlen fun n hn => by
        obtain ⟨twin, htw, -⟩ := htwin n hn
        rw [← indexed'.get?_isSome, htw]
        rfl
      refine ⟨sameHeader_symm hheader, hlen.symm, fun n' hn' => ?_⟩
      -- a twin's twin is the child itself
      obtain ⟨n, hn⟩ := Option.isSome_iff_exists.mp (indexed.get?_isSome.mpr (hcovered n' hn'))
      obtain ⟨hmem, hsig⟩ := indexed.get?_eq_some.mp hn
      obtain ⟨twin, htw, hsame⟩ := htwin n hmem
      have heq : ChildMap.get? ⟨nodes', index'⟩ n.signature = some n' := by
        rw [hsig]
        exact indexed'.get?_eq_some.mpr ⟨hn', rfl⟩
      obtain rfl : twin = n' := Option.some.inj (htw.symm.trans heq)
      exact ⟨n, hn, ih n hmem (below' twin hn') hsame⟩

theorem sameContent_trans (ha : a.Keyed) (hb : b.Keyed) (hc : c.Keyed) (h : sameContent s t a b)
    (k : sameContent t u b c) : sameContent s u a c := by
  induction ha generalizing b c with
  | leaf head =>
    cases hb with
    | container => simp [sameContent] at h
    | leaf head' =>
      cases hc with
      | container => simp [sameContent] at k
      | leaf head'' =>
        simp only [sameContent, sameTokens, beq_iff_eq] at h k ⊢
        exact h.trans k
  | container head braces nodes index indexed below ih =>
    cases hb with
    | leaf head' => simp [sameContent] at h
    | container head' braces' nodes' index' indexed' below' =>
      cases hc with
      | leaf head'' => simp [sameContent] at k
      | container head'' braces'' nodes'' index'' indexed'' below'' =>
        rw [sameContent_container] at h k ⊢
        obtain ⟨hheader, hlen, htwin⟩ := h
        obtain ⟨hheader', hlen', htwin'⟩ := k
        refine ⟨sameHeader_trans hheader hheader', hlen.trans hlen', fun n hn => ?_⟩
        obtain ⟨m, hm, hnm⟩ := htwin n hn
        obtain ⟨hmem, hsig⟩ := indexed'.get?_eq_some.mp hm
        obtain ⟨o, ho, hmo⟩ := htwin' m hmem
        rw [hsig] at ho
        have hmem' := (indexed''.get?_eq_some.mp ho).1
        exact ⟨o, ho, ih n hn (below' m hmem) (below'' o hmem') hnm hmo⟩

theorem indexed (h : a.Keyed) {m : ChildMap Node} (hm : a.children? = some m) : m.Indexed := by
  cases h with
  | leaf => cases hm
  | container head braces nodes index indexed =>
    cases hm
    exact indexed

/-- A child is keyed as its container is, and is found under its own signature. -/
theorem child (h : a.Keyed) {sig : String} (hb : a.child? sig = some b) :
    b.Keyed ∧ b.signature = sig := by
  cases h with
  | leaf => cases hb
  | container head braces nodes index indexed below =>
    obtain ⟨hmem, hsig⟩ := indexed.get?_eq_some.mp hb
    exact ⟨below b hmem, hsig⟩

/-- A child of a container has its twin in a container of the same content. -/
theorem twin (h : a.Keyed) (hsame : sameContent s t a b) {sig : String}
    (hc : a.child? sig = some c) : ∃ d, b.child? sig = some d ∧ sameContent s t c d := by
  cases h with
  | leaf => cases hc
  | container head braces nodes index indexed below =>
    cases b with
    | leaf => simp [sameContent] at hsame
    | container head' braces' nodes' index' =>
      obtain ⟨hmem, rfl⟩ := indexed.get?_eq_some.mp hc
      exact (sameContent_container.mp hsame).2.2 c hmem

theorem find (h : a.Keyed) {p : List String} (hb : a.find? p = some b) : b.Keyed := by
  induction p generalizing a with
  | nil =>
    cases hb
    exact h
  | cons sig p ih =>
    rw [Node.find?, List.foldlM_cons, Option.bind_eq_bind, Option.bind_eq_some_iff] at hb
    obtain ⟨x, hx, hb⟩ := hb
    exact ih (h.child hx).1 hb

end Node.Keyed

section Paths

variable {n : Node} {sig : String} {p q : List String}

theorem Node.find?_cons : n.find? (sig :: p) = (n.child? sig).bind (·.find? p) := by
  rw [Node.find?, List.foldlM_cons]
  rfl

theorem Node.find?_append : n.find? (p ++ q) = (n.find? p).bind (·.find? q) := by
  rw [Node.find?, List.foldlM_append]
  rfl

theorem Node.find?_concat : n.find? (p ++ [sig]) = (n.find? p).bind (·.child? sig) := by
  rw [Node.find?_append]
  congr 1
  funext m
  rw [Node.find?_cons]
  exact Option.bind_fun_some _

theorem Tree.find?_concat {t : Tree} {m : ChildMap Node} (hn : t.find? p = some n) (hm : n.children? = some m)
    (sig : String) : t.find? (p ++ [sig]) = m.get? sig := by
  rw [Tree.find?, Node.find?_concat, show t.root.find? p = some n from hn, Option.bind_some, Node.child?, hm,
    Option.bind_some]

end Paths

end ModWeave
