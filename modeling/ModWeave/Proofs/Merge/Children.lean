import ModWeave.Proofs.Merge.Standing
import ModWeave.Proofs.Tree.Signature

/-! The children of a container in two lanes, statements and clauses, each standing for its form. -/
namespace ModWeave

variable {l : Language} {s t : Source} {i j k : Nat} {f : Form} {fs body clauses : List Form} {n : Node}
  {ns cs before after : List Node} {m : ChildMap Node}

/-- What is read between two cuts, the lexemes there being known. -/
theorem Source.Spells.reads {ls : List Lexeme} {lo hi : Nat} (h : s.Spells i ls) (hlo : s.Cut l lo i)
    (hhi : s.Cut l hi (i + ls.length)) (hle : lo ≤ hi) :
    ∃ text, s.textBetween? lo hi = some text ∧ l.Reads text ls := by
  obtain ⟨text, htext, hreads⟩ := hlo.between hhi hle (Nat.le_add_right _ _)
  rw [h.between] at hreads
  exact ⟨text, htext, hreads⟩

namespace StandingAll

private theorem left (pre : List Form) {post : List Form} (h : StandingAll l s i (pre ++ post) ns)
    (hdepicts : DepictsAll s i pre before) : StandingAll l s i pre before := by
  have hspells := h.spells
  rw [lexemesAll_append] at hspells
  exact ⟨hdepicts, hspells.left, h.closed, fun f hf => h.sound f (List.mem_append_left _ hf)⟩

/-- A node among others stands for a form among others, strays in front of it and behind it. -/
theorem split (h : StandingAll l s i fs (before ++ n :: after)) :
    ∃ pre f post, fs = pre ++ f :: post ∧ StandingAll l s i pre before ∧
      Standing l s (i + (lexemesAll pre).length) f n ∧
      StandingAll l s (i + (lexemesAll pre).length + f.lexemes.length) post after := by
  induction fs generalizing i before with
  | nil => exact absurd h.eq_nil (by simp)
  | cons f fs ih =>
    cases hf : f.isSolid with
    | false =>
      cases f with
      | leaf | block => cases hf
      | stray x =>
        obtain ⟨pre, g, post, rfl, hpre, hn, hpost⟩ := ih h.stray.1
        have hlen : i + (lexemesAll (.stray x :: pre)).length = i + 1 + (lexemesAll pre).length := by
          rw [lexemesAll_cons, Form.lexemes, List.length_append, List.length_singleton, Nat.add_assoc]
        have hfront := h.left (.stray x :: pre) (.stray i x hpre.depicts)
        exact ⟨.stray x :: pre, g, post, rfl, hfront, hlen ▸ hn, hlen ▸ hpost⟩
    | true =>
      obtain ⟨m, ns, hnodes, hm, hns⟩ := h.uncons hf
      cases before with
      | nil =>
        obtain ⟨rfl, rfl⟩ := List.cons.inj hnodes
        exact ⟨[], f, fs, rfl, ⟨.nil i, List.nil_prefix, h.closed, by simp⟩, hm, hns⟩
      | cons b before =>
        obtain ⟨rfl, rfl⟩ := List.cons.inj hnodes
        obtain ⟨pre, g, post, rfl, hpre, hn, hpost⟩ := ih hns
        have hlen : i + (lexemesAll (f :: pre)).length = i + f.lexemes.length + (lexemesAll pre).length := by
          rw [lexemesAll_cons, List.length_append, Nat.add_assoc]
        have hfront := h.left (f :: pre) (.solid hm.depicts hpre.depicts)
        exact ⟨f :: pre, g, post, rfl, hfront, hlen ▸ hn, hlen ▸ hpost⟩

/-- The form of a node comes among the solid forms where the node comes among the nodes. -/
theorem solids_getElem? {pre post : List Form} (h : StandingAll l s i pre before) (hf : f.isSolid = true) :
    (solids (pre ++ f :: post))[before.length]? = some f := by
  rw [solids_append, solids_cons_of_isSolid hf, ← h.forall₂.length_eq, List.getElem?_append_right (Nat.le_refl _),
    Nat.sub_self, List.getElem?_cons_zero]

/-- Where no node stands there are strays only. -/
theorem strays (h : StandingAll l s i fs []) : solids fs = [] := by
  have hall := h.forall₂
  exact List.forall₂_nil_right_iff.mp hall

end StandingAll

/-- The children of a container stand for sound forms: statements from token `i` on, and clauses from
token `k` on. -/
structure Lanes (l : Language) (s : Source) (i k : Nat) (body clauses : List Form) (m : ChildMap Node)
    (ns cs : List Node) : Prop where
  nodes : m.nodes = ns ++ cs
  statements : StandingAll l s i body ns
  chain : StandingAll l s k clauses cs
  plain : ∀ f ∈ body, f.isClause = false
  hung : ∀ f ∈ clauses, f.isClause = true
  keys : m.signatures = keysOf (labelsOf body ++ labelsOf clauses)
  indexed : m.Indexed
  fresh : labelsRedefine .empty 0 (labelsOf body ++ labelsOf clauses) = false

/-- Nodes that stand for forms are of the kinds of their labels. -/
theorem StandingAll.kinds (h : StandingAll l s i fs ns) : ns.map Node.kind = (labelsOf fs).map Label.kind := by
  refine h.induction (motive := fun _ fs ns => ns.map Node.kind = (labelsOf fs).map Label.kind) ?_ ?_ ?_
  · exact fun _ _ => rfl
  · exact fun _ _ _ _ _ _ ih => ih
  · intro i f n fs ns hn _ ih
    rw [labelsOf_cons, List.map_cons, List.map_append, ih]
    cases hn.depicts <;> rfl

namespace Lanes

variable {body' clauses' : List Form} {m' : ChildMap Node} {ns' cs' : List Node} {i' k' : Nat}

theorem statement (h : Lanes l s i k body clauses m ns cs) (hn : n ∈ ns) : n.kind.isClause = false := by
  obtain ⟨j, f, hf, hstand, -⟩ := h.statements.within hn
  rw [hstand.isClause, h.plain f hf]

theorem clause (h : Lanes l s i k body clauses m ns cs) (hn : n ∈ cs) : n.kind.isClause = true := by
  obtain ⟨j, f, hf, hstand, -⟩ := h.chain.within hn
  rw [hstand.isClause, h.hung f hf]

/-- The children are known by the keys of their forms, which are all different. -/
theorem keyed_eq (h : Lanes l s i k body clauses m ns cs) :
    (keyed body clauses).map Prod.fst = m.signatures := by
  have hlen : m.signatures.length = (solids body ++ solids clauses).length := by
    rw [ChildMap.signatures, List.length_map, h.nodes, List.length_append, List.length_append,
      h.statements.forall₂.length_eq, h.chain.forall₂.length_eq]
  rw [keyed, ← h.keys, List.map_fst_zip (Nat.le_of_eq hlen)]

theorem mem_statements (h : Lanes l s i k body clauses m ns cs) (hn : n ∈ m.nodes)
    (hkind : n.kind.isClause = false) : n ∈ ns := by
  rw [h.nodes, List.mem_append] at hn
  exact hn.resolve_right fun hn => by simp [h.clause hn] at hkind

theorem mem_chain (h : Lanes l s i k body clauses m ns cs) (hn : n ∈ m.nodes)
    (hkind : n.kind.isClause = true) : n ∈ cs := by
  rw [h.nodes, List.mem_append] at hn
  exact hn.resolve_left fun hn => by simp [h.statement hn] at hkind

theorem told (h : Lanes .script s i k body clauses m ns cs) (hn : n ∈ m.nodes) :
    n.kind.ToldBy n.signature := by
  refine told_of_keys h.fresh (fun label hlabel j => ?_) ?_ h.keys n hn
  · rw [← labelsOf_append] at hlabel
    obtain ⟨f, hf, hlabel⟩ := List.mem_filterMap.mp hlabel
    refine Script.Sound.toldBy ?_ hlabel j
    rcases List.mem_append.mp hf with hf | hf
    · exact h.statements.sound f hf
    · exact h.chain.sound f hf
  · rw [h.nodes, List.map_append, h.statements.kinds, h.chain.kinds, List.map_append]

/-- A document has no clauses. -/
private theorem markup_plain (h : Lanes .markup s i k body clauses m ns cs) (hn : n ∈ m.nodes) :
    n.kind.isClause = false := by
  rw [h.nodes, List.mem_append] at hn
  rcases hn with hn | hn
  · exact h.statement hn
  · obtain ⟨j, f, hf, hstand, -⟩ := h.chain.within hn
    rw [hstand.isClause]
    exact (show Markup.Sound f from h.chain.sound f hf).plain

/-- The lane of a child is told by its signature, and so is an `else`. -/
theorem same_lane (h : Lanes l s i k body clauses m ns cs)
    (h' : Lanes l t i' k' body' clauses' m' ns' cs') {n' : Node} (hn : n ∈ m.nodes) (hn' : n' ∈ m'.nodes)
    (hsig : n.signature = n'.signature) :
    n.kind.isClause = n'.kind.isClause ∧ (n.kind == .otherwise) = (n'.kind == .otherwise) := by
  cases l with
  | script =>
    have htold := h.told hn
    rw [hsig] at htold
    exact ⟨htold.same_clause (h'.told hn'), htold.same_else (h'.told hn')⟩
  | markup =>
    have hplain := h.markup_plain hn
    have hplain' := h'.markup_plain hn'
    have helse {kind : NodeKind} (hk : kind.isClause = false) : (kind == .otherwise) = false := by
      cases kind <;> first | rfl | cases hk
    exact ⟨by rw [hplain, hplain'], by rw [helse hplain, helse hplain']⟩

/-- Children that both sides have in one order are in one order lane by lane. -/
theorem order (h : Lanes l s i k body clauses m ns cs) (h' : Lanes l t i' k' body' clauses' m' ns' cs')
    (horder : m.signatures.filter m'.contains = m'.signatures.filter m.contains) :
    (ns.map Node.signature).filter m'.contains = (ns'.map Node.signature).filter m.contains ∧
      (cs.map Node.signature).filter m'.contains = (cs'.map Node.signature).filter m.contains := by
  rw [ChildMap.signatures, ChildMap.signatures, h.nodes, h'.nodes, List.map_append, List.map_append,
    List.filter_append, List.filter_append] at horder
  have hown (n : Node) (hn : n ∈ m.nodes) : m.get? n.signature = some n := h.indexed.get?_eq_some.mpr ⟨hn, rfl⟩
  -- a child of the mod that the base has too is of the base's lane
  have hother (n' : Node) (hn' : n' ∈ m'.nodes) (hc : m.contains n'.signature = true) :
      ∃ n, m.get? n'.signature = some n ∧ n.kind.isClause = n'.kind.isClause := by
    obtain ⟨n, hn⟩ := Option.isSome_iff_exists.mp (h.indexed.get?_isSome.mpr hc)
    obtain ⟨hmem, hsig⟩ := h.indexed.get?_eq_some.mp hn
    exact ⟨n, hn, (h.same_lane h' hmem hn' hsig).1⟩
  refine append_inj_of_kind (p := fun sig => (m.get? sig).any (·.kind.isClause)) horder ?_ ?_
  · simp only [List.forall_mem_append, List.mem_filter, List.mem_map, and_imp, forall_exists_index]
    refine ⟨?_, ?_⟩
    · rintro sig n hn rfl -
      rw [hown n (h.nodes ▸ List.mem_append_left _ hn), Option.any_some, h.statement hn]
    · rintro sig n hn rfl hc
      obtain ⟨b, hb, hkind⟩ := hother n (h'.nodes ▸ List.mem_append_left _ hn) hc
      rw [hb, Option.any_some, hkind, h'.statement hn]
  · simp only [List.forall_mem_append, List.mem_filter, List.mem_map, and_imp, forall_exists_index]
    refine ⟨?_, ?_⟩
    · rintro sig n hn rfl -
      rw [hown n (h.nodes ▸ List.mem_append_right _ hn), Option.any_some, h.clause hn]
    · rintro sig n hn rfl hc
      obtain ⟨b, hb, hkind⟩ := hother n (h'.nodes ▸ List.mem_append_right _ hn) hc
      rw [hb, Option.any_some, hkind, h'.clause hn]

end Lanes

end ModWeave
