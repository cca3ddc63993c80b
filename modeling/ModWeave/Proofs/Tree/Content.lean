import ModWeave.Proofs.Lists
import ModWeave.Proofs.Tree.Depiction
import ModWeave.Proofs.Tree.Sameness

/-! Sameness of content, told by forms. Two nodes have the same content exactly when their forms agree:
leaves in their lexemes, blocks in their headers and, key by key, in their children. -/
namespace ModWeave

/-- The lexemes stand in the source from token `i` on. -/
def Source.Spells (s : Source) (i : Nat) (ls : List Lexeme) : Prop := ls <+: s.lexemes.drop i

namespace Source.Spells

variable {s : Source} {i : Nat} {ls ms : List Lexeme}

theorem left (h : s.Spells i (ls ++ ms)) : s.Spells i ls := (List.prefix_append ls ms).trans h

theorem right (h : s.Spells i (ls ++ ms)) : s.Spells (i + ls.length) ms := by
  obtain ⟨rest, hr⟩ := h
  refine ⟨rest, ?_⟩
  rw [← List.drop_drop, ← hr, List.append_assoc, List.drop_left]

theorem tail {x : Lexeme} (h : s.Spells i (x :: ls)) : s.Spells (i + 1) ls := by
  rw [← List.singleton_append] at h
  exact h.right

theorem slice (h : s.Spells i ls) : (s.slice ⟨i, i + ls.length⟩).map Token.content = ls := by
  obtain ⟨rest, hr⟩ := h
  rw [Source.slice, List.map_take, List.map_drop]
  show (s.lexemes.drop i).take _ = ls
  rw [← hr, Nat.add_sub_cancel_left, List.take_left]

theorem slice_cons {x : Lexeme} (h : s.Spells i (x :: ls)) :
    (s.slice ⟨i, i + 1 + ls.length⟩).map Token.content = x :: ls := by
  have hlen : i + 1 + ls.length = i + (x :: ls).length := by
    simp only [List.length_cons]
    omega
  rw [hlen]
  exact h.slice

theorem stop_le (h : s.Spells i ls) (hne : 0 < ls.length) : i + ls.length ≤ s.tokens.length := by
  have := List.IsPrefix.length_le h
  simp only [Source.lexemes, List.length_drop, List.length_map] at this
  omega

end Source.Spells

/-- Children with the keys they get, statements before clauses. -/
def keyed (body clauses : List Form) : List (String × Form) :=
  (keysOf (labelsOf body ++ labelsOf clauses)).zip (solids body ++ solids clauses)

/-- Forms that mean the same. -/
inductive SameForm : Form → Form → Prop
  | leaf (label label' : Label) (x : Lexeme) (ls : List Lexeme) :
      SameForm (.leaf label x ls) (.leaf label' x ls)
  | block {label label' : Label} {header : List Lexeme} {opening opening' closing closing' : Lexeme}
      {body body' clauses clauses' : List Form} {trail trail' : List Lexeme} (twin : String → Form)
      (length : (keyed body clauses).length = (keyed body' clauses').length)
      (mem : ∀ p ∈ keyed body clauses, (p.1, twin p.1) ∈ keyed body' clauses')
      (same : ∀ p ∈ keyed body clauses, SameForm p.2 (twin p.1)) :
      SameForm (.block label header opening body closing clauses trail)
        (.block label' header opening' body' closing' clauses' trail')

/-- The node stands for a keyed form somewhere in the source. -/
def Shown (s : Source) (p : String × Form) (n : Node) : Prop :=
  n.signature = p.1 ∧ ∃ i, Depicts s i p.2 n ∧ s.Spells i p.2.lexemes

private theorem DepictsAll.forall₂ {s : Source} {i : Nat} {fs : List Form} {ns : List Node}
    (h : DepictsAll s i fs ns) (hs : s.Spells i (lexemesAll fs)) :
    List.Forall₂ (fun f n => ∃ i, Depicts s i f n ∧ s.Spells i f.lexemes) (solids fs) ns := by
  induction fs generalizing i ns with
  | nil =>
    cases h
    exact .nil
  | cons f fs ih =>
    cases h with
    | stray _ _ rest => exact ih rest hs.right
    | solid first rest =>
      have hsolid : f.isSolid := by cases first <;> rfl
      rw [solids, List.filter_cons_of_pos hsolid]
      exact .cons ⟨i, first, hs.left⟩ (ih rest hs.right)

private theorem forall₂_zip {α β γ : Type} {R : β → γ → Prop} {sig : γ → α} {xs : List β}
    {ys : List γ} (h : List.Forall₂ R xs ys) :
    List.Forall₂ (fun p y => sig y = p.1 ∧ R p.2 y) ((ys.map sig).zip xs) ys := by
  induction h with
  | nil => exact .nil
  | cons hxy _ ih => exact .cons ⟨rfl, hxy⟩ ih

/-- The children stand for the keyed forms, one by one. -/
theorem Inside.forall₂ {s : Source} {i k : Nat} {body clauses : List Form} {m : ChildMap Node}
    (h : Inside s i k body clauses m) (hb : s.Spells i (lexemesAll body))
    (hc : s.Spells k (lexemesAll clauses)) :
    List.Forall₂ (Shown s) (keyed body clauses) m.nodes := by
  obtain ⟨ns, cs, hsplit, hns, hcs⟩ := h.split
  have hall : List.Forall₂ _ (solids body ++ solids clauses) (ns ++ cs) :=
    List.rel_append (hns.forall₂ hb) (hcs.forall₂ hc)
  rw [← hsplit] at hall
  rw [keyed, ← h.keys]
  exact forall₂_zip hall

private theorem map_eq_of_forall₂ {α β γ : Type} {R : α → β → Prop} {xs : List α} {ys : List β}
    {f : α → γ} {g : β → γ} (h : List.Forall₂ R xs ys) (hfg : ∀ x y, R x y → f x = g y) :
    xs.map f = ys.map g := by
  induction h with
  | nil => rfl
  | cons hxy _ ih => rw [List.map_cons, List.map_cons, hfg _ _ hxy, ih]

theorem mem_of_mem_keyed {body clauses : List Form} {p : String × Form}
    (h : p ∈ keyed body clauses) : p.2 ∈ body ∨ p.2 ∈ clauses := by
  have := (List.of_mem_zip h).2
  exact (List.mem_append.mp this).imp List.mem_of_mem_filter List.mem_of_mem_filter

/-- No two children have one key. -/
theorem keyed_functional {s : Source} {body clauses : List Form} {m : ChildMap Node}
    (h : List.Forall₂ (Shown s) (keyed body clauses) m.nodes) (hm : m.Indexed)
    {p q : String × Form} (hp : p ∈ keyed body clauses) (hq : q ∈ keyed body clauses)
    (hpq : p.1 = q.1) : p = q := by
  have hkeys : (keyed body clauses).map Prod.fst = m.signatures :=
    map_eq_of_forall₂ h fun _ _ hpn => hpn.1.symm
  have hnodup : ((keyed body clauses).map Prod.fst).Nodup := hkeys ▸ hm.nodup
  exact List.inj_on_of_nodup_map hnodup hp hq hpq

/-- Where each of some forms has its match under its key, a function of the keys gives them: the keys tell the
matches apart. -/
private theorem exists_twin {t : Source} {body clauses : List Form} {m : ChildMap Node}
    (hall : List.Forall₂ (Shown t) (keyed body clauses) m.nodes) (hm : m.Indexed) {xs : List (String × Form)}
    {R : Form → Form → Prop} (h : ∀ p ∈ xs, ∃ g, (p.1, g) ∈ keyed body clauses ∧ R p.2 g) :
    ∃ twin : String → Form, ∀ p ∈ xs, (p.1, twin p.1) ∈ keyed body clauses ∧ R p.2 (twin p.1) := by
  classical
  refine ⟨fun k => if h : ∃ g, (k, g) ∈ keyed body clauses then h.choose else .stray (.text, ""), fun p hp => ?_⟩
  obtain ⟨g, hg, hpg⟩ := h p hp
  have hchoice : ∃ g, (p.1, g) ∈ keyed body clauses := ⟨g, hg⟩
  have heq := keyed_functional hall hm hchoice.choose_spec hg rfl
  simp only [dif_pos hchoice]
  exact ⟨hchoice.choose_spec, (Prod.mk.inj heq).2 ▸ hpg⟩

private theorem parts_of_block {s : Source} {i : Nat} {label : Label} {header : List Lexeme}
    {opening closing : Lexeme} {body clauses : List Form} {trail : List Lexeme} {ns cs : List Node}
    {index : List (String × Nat)}
    (hs : s.Spells i (Form.block label header opening body closing clauses trail).lexemes)
    (hns : DepictsAll s (i + header.length + 1) body ns)
    (hcs : DepictsAll s (i + header.length + 1 + (lexemesAll body).length + 1) clauses cs)
    (hkeys : (ns ++ cs).map Node.signature = keysOf (labelsOf body ++ labelsOf clauses))
    (hidx : ChildMap.Indexed ⟨ns ++ cs, index⟩)
    (hfresh : labelsRedefine .empty 0 (labelsOf body ++ labelsOf clauses) = false) :
    (s.slice ⟨i, i + header.length⟩).map Token.content = header ∧
      List.Forall₂ (Shown s) (keyed body clauses) (ns ++ cs) := by
  have hinside : Inside s _ _ body clauses ⟨ns ++ cs, index⟩ :=
    ⟨⟨ns, cs, rfl, hns, hcs⟩, hkeys, hidx, hfresh⟩
  rw [Form.lexemes] at hs
  have hbody := hs.right.tail
  exact ⟨hs.left.slice, hinside.forall₂ hbody.left hbody.right.tail.left⟩

private theorem sizeOf_lt_of_mem_keyed {label : Label} {header : List Lexeme}
    {opening closing : Lexeme} {body clauses : List Form} {trail : List Lexeme}
    {p : String × Form} (hp : p ∈ keyed body clauses) :
    sizeOf p.2 < sizeOf (Form.block label header opening body closing clauses trail) := by
  rw [Form.block.sizeOf_spec]
  rcases mem_of_mem_keyed hp with hmem | hmem
  · have := List.sizeOf_lt_of_mem hmem
    omega
  · have := List.sizeOf_lt_of_mem hmem
    omega

/-- Nodes have the same content exactly when the forms that they depict mean the same. -/
theorem sameContent_iff {f g : Form} {s t : Source} {i j : Nat} {n m : Node}
    (hn : Depicts s i f n) (hs : s.Spells i f.lexemes) (hm : Depicts t j g m)
    (ht : t.Spells j g.lexemes) : sameContent s t n m ↔ SameForm f g := by
  induction hz : sizeOf f using Nat.strongRecOn generalizing f g i j n m with
  | ind z ih =>
    subst hz
    cases hn with
    | leaf i label x ls sig =>
      cases hm with
      | leaf j label' y ms sig' =>
        rw [sameContent, sameTokens, hs.slice_cons, ht.slice_cons, beq_iff_eq]
        constructor
        · intro h
          rw [List.cons.injEq] at h
          obtain ⟨rfl, rfl⟩ := h
          exact .leaf label label' x ls
        · intro h
          cases h
          rfl
      | block =>
        simp only [sameContent, Bool.false_eq_true, false_iff]
        rintro ⟨⟩
    | block i label header opening body closing clauses trail sig ns cs index hns hcs hkeys hidx
        hfresh =>
      cases hm with
      | leaf j label' y ms sig' =>
        simp only [sameContent, Bool.false_eq_true, false_iff]
        rintro ⟨⟩
      | block j label' header' opening' body' closing' clauses' trail' sig' ns' cs' index' hns' hcs'
          hkeys' hidx' hfresh' =>
        obtain ⟨hhead, hall⟩ := parts_of_block hs hns hcs hkeys hidx hfresh
        obtain ⟨hhead', hall'⟩ := parts_of_block ht hns' hcs' hkeys' hidx' hfresh'
        have hsub {p q : String × Form} {a b : Node} (hp : p ∈ keyed body clauses)
            (ha : Shown s p a) (hb : Shown t q b) : sameContent s t a b ↔ SameForm p.2 q.2 := by
          obtain ⟨-, i', hdep, hsp⟩ := ha
          obtain ⟨-, j', hdep', hsp'⟩ := hb
          exact ih _ (sizeOf_lt_of_mem_keyed hp) hdep hsp hdep' hsp' rfl
        rw [sameContent, sameHeader, sameTokens]
        simp only [Node.header, Node.braces?, Node.tokens, Node.head, hhead, hhead', Bool.and_eq_true,
          beq_iff_eq, allHaveTwin_iff, ← hall.length_eq, ← hall'.length_eq]
        constructor
        · rintro ⟨⟨rfl, hlen⟩, htwin⟩
          have hex (p : String × Form) (hp : p ∈ keyed body clauses) :
              ∃ g, (p.1, g) ∈ keyed body' clauses' ∧ SameForm p.2 g := by
            obtain ⟨a, ha, hpa⟩ := exists_of_forall₂_left hall hp
            obtain ⟨b, hb, hab⟩ := htwin a ha
            obtain ⟨hmem, hsig⟩ := hidx'.get?_eq_some.mp hb
            obtain ⟨q, hq, hqb⟩ := exists_of_forall₂_right hall' hmem
            have hkey : p.1 = q.1 := by rw [← hpa.1, ← hqb.1, hsig]
            exact ⟨q.2, hkey ▸ hq, (hsub hp hpa hqb).mp hab⟩
          obtain ⟨twin, htwin⟩ := exists_twin hall' hidx' hex
          exact .block twin hlen (fun p hp => (htwin p hp).1) fun p hp => (htwin p hp).2
        · intro h
          cases h with
          | block twin hlen hmem hsame =>
            refine ⟨⟨rfl, hlen⟩, fun a ha => ?_⟩
            obtain ⟨p, hp, hpa⟩ := exists_of_forall₂_right hall ha
            obtain ⟨b, hb, hpb⟩ := exists_of_forall₂_left hall' (hmem p hp)
            refine ⟨b, hidx'.get?_eq_some.mpr ⟨hb, ?_⟩, (hsub hp hpa hpb).mpr (hsame p hp)⟩
            rw [hpb.1, hpa.1]

end ModWeave
