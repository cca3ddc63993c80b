import ModWeave.Proofs.Tree.Content
import ModWeave.Proofs.Tree.Disambiguation
import ModWeave.Proofs.Tree.Language

/-! Keys of siblings, read off their labels. A construct that a later one of its tag would replace is known
by its tag, and a row of labels redefines nothing when these tags are apart. -/
namespace ModWeave

/-- A label of a script: the tag is one of its kind, wherever the construct stands. -/
structure Label.OfScript (l : Label) : Prop where
  fixed : ∀ j, l.tag j = l.tag 0
  tags : l.kind.Tags (l.tag 0)

/-- A label that constructs of a language may have. -/
def Language.Admits : Language → Label → Prop
  | .script, l => l.OfScript
  | .markup, l => l.kind = .element

/-- Labels with the keys that they get side by side. -/
def roll (ls : List Label) : List (String × Label) := (keysOf ls).zip ls

/-- The nodes of labels, each under its tag. -/
def plainNodes (ls : List Label) : List Node := ls.map fun l => l.node 0

section Length

variable {ns : List Node}

private theorem length_latest_le (ns : List Node) : (latest ns).length ≤ ns.length := by
  induction ns using List.reverseRecOn with
  | nil => exact Nat.le_refl 0
  | append_singleton ns n ih =>
    by_cases hn : n.signature ∈ ns.map Node.signature
    · rw [latest_concat_of_mem hn, Node.superseding, List.length_map, List.length_append]
      omega
    · rw [latest_concat_of_not_mem hn, List.length_append, List.length_append]
      simpa using ih

/-- Where as many are kept as there are, all are kept. -/
private theorem latest_eq_self (h : (latest ns).length = ns.length) : latest ns = ns := by
  induction ns using List.reverseRecOn with
  | nil => rfl
  | append_singleton ns n ih =>
    by_cases hn : n.signature ∈ ns.map Node.signature
    · rw [latest_concat_of_mem hn, Node.superseding, List.length_map, List.length_append,
        List.length_singleton] at h
      have := length_latest_le ns
      omega
    · rw [latest_concat_of_not_mem hn] at h ⊢
      rw [List.length_append, List.length_append, Nat.add_right_cancel_iff] at h
      rw [ih h]

end Length

section Script

variable {ls pre : List Label} {l : Label} {b : Block} {seen : List Node} {k tag : String} {j : Nat}

private theorem tagged_plainNodes (h : ∀ l ∈ ls, l.OfScript) : Tagged (plainNodes ls) := by
  intro n hn
  obtain ⟨l, hl, rfl⟩ := List.mem_map.mp hn
  exact (h l hl).tags

theorem Label.OfScript.node_eq (h : l.OfScript) (j : Nat) : l.node j = l.node 0 := by
  rw [Label.node, Label.node, h.fixed]

private theorem tracks_attachLabels (h : b.Tracks seen) (hseen : Tagged seen) (hls : ∀ l ∈ ls, l.OfScript) :
    (attachLabels b j ls).Tracks (seen ++ plainNodes ls) := by
  induction ls generalizing b seen j with
  | nil => simpa [attachLabels, plainNodes] using h
  | cons l ls ih =>
    rw [List.forall_mem_cons] at hls
    have htags : (l.node 0).kind.Tags (l.node 0).signature := hls.1.tags
    have hseen' : Tagged (seen ++ [l.node 0]) := by
      intro n hn
      rcases List.mem_append.mp hn with hn | hn
      · exact hseen n hn
      · rw [List.mem_singleton.mp hn]
        exact htags
    have := ih (j := j + 1) (Block.tracks_attach h hseen htags) hseen' hls.2
    rw [attachLabels, hls.1.node_eq]
    simpa [plainNodes] using this

private theorem tracks_labels (hls : ∀ l ∈ ls, l.OfScript) :
    (attachLabels .empty 0 ls).Tracks (plainNodes ls) :=
  tracks_attachLabels Block.tracks_empty (by simp [Tagged]) hls

private theorem length_attachLabels (hb : b.children.Indexed) (h : labelsRedefine b j ls = false) :
    (attachLabels b j ls).children.nodes.length = b.children.nodes.length + ls.length := by
  induction ls generalizing b j with
  | nil => rfl
  | cons l ls ih =>
    rw [labelsRedefine, Bool.or_eq_false_iff] at h
    obtain ⟨hindexed, hnodes⟩ := Block.indexed_attach hb h.1
    have hlen := congrArg List.length hnodes
    rw [List.length_map, List.length_append, List.length_map, List.length_singleton] at hlen
    rw [attachLabels, ih hindexed h.2, hlen, List.length_cons]
    omega

private theorem length_signedFrom (block before xs : List Node) :
    (signedFrom block before xs).length = xs.length := by
  induction xs generalizing before with
  | nil => rfl
  | cons x xs ih => rw [signedFrom, List.length_cons, List.length_cons, ih]

/-- Where nothing is redefined each label has the key that it gets with the whole row in view. -/
theorem keysOf_script (hls : ∀ l ∈ ls, l.OfScript) (hfresh : labelsRedefine .empty 0 ls = false) :
    keysOf ls = (signed (plainNodes ls)).map Node.signature := by
  have htracks := tracks_labels hls
  have hlen := length_attachLabels ChildMap.indexed_empty hfresh
  rw [htracks.nodes] at hlen
  have hself : latest (signed (plainNodes ls)) = signed (plainNodes ls) := by
    refine latest_eq_self ?_
    rw [hlen, signed, length_signedFrom, plainNodes, List.length_map]
    exact Nat.zero_add _
  rw [keysOf, ChildMap.signatures, htracks.nodes, hself]
  rfl

private theorem mem_zip_signedFrom {block : List Node}
    (h : (k, l) ∈ ((signedFrom block [] (plainNodes ls)).map Node.signature).zip ls) :
    ∃ pre post, ls = pre ++ l :: post ∧ k = eagerKey block (plainNodes pre) (l.node 0) := by
  induction ls using List.reverseRecOn with
  | nil => simp at h
  | append_singleton ls last ih =>
    have hsplit : plainNodes (ls ++ [last]) = plainNodes ls ++ [last.node 0] := by simp [plainNodes]
    have hlen : ((signedFrom block [] (plainNodes ls)).map Node.signature).length = ls.length := by
      rw [List.length_map, length_signedFrom, plainNodes, List.length_map]
    rw [hsplit, signedFrom_concat, List.map_append, List.zip_append hlen, List.mem_append] at h
    rcases h with h | h
    · obtain ⟨pre, post, rfl, hk⟩ := ih h
      exact ⟨pre, post ++ [last], by simp, hk⟩
    · obtain ⟨rfl, rfl⟩ : k = _ ∧ l = last := by simpa using h
      exact ⟨ls, [], rfl, rfl⟩

/-- A label of a script with its key, as it stands in its row. -/
theorem mem_roll_script (hls : ∀ l ∈ ls, l.OfScript) (hfresh : labelsRedefine .empty 0 ls = false)
    (h : (k, l) ∈ roll ls) :
    ∃ pre post, ls = pre ++ l :: post ∧ k = eagerKey (plainNodes ls) (plainNodes pre) (l.node 0) := by
  rw [roll, keysOf_script hls hfresh] at h
  exact mem_zip_signedFrom h

/-- A row of labels of a script redefines nothing when the tags of those that replace are apart. -/
theorem labelsRedefine_script (hls : ∀ l ∈ ls, l.OfScript) (hapart : ls.Pairwise fun l l' =>
    l.kind.repetition = .replaces → l'.kind.repetition = .replaces → l.tag 0 ≠ l'.tag 0) :
    labelsRedefine .empty 0 ls = false := by
  induction ls using List.reverseRecOn with
  | nil => rfl
  | append_singleton ls l ih =>
    obtain ⟨hpairwise, -, hlast⟩ := List.pairwise_append.mp hapart
    have hls' : ∀ l ∈ ls, l.OfScript := fun l hl => hls l (List.mem_append_left _ hl)
    have hl : l.OfScript := hls l (by simp)
    have htracks := tracks_labels hls'
    rw [labelsRedefine_append, ih hls' hpairwise, Bool.false_or, labelsRedefine, labelsRedefine, Bool.or_false,
      hl.node_eq, ← Bool.not_eq_true, Block.replaces_iff htracks.indexed]
    by_cases hr : l.kind.repetition = .replaces
    · -- the tag is no key of those before
      have hkey : (attachLabels .empty 0 ls).key (l.node 0) = (l.tag 0, attachLabels .empty 0 ls) := by
        have hnode : (l.node 0).kind.repetition = .replaces := hr
        unfold Block.key
        rw [hnode]
        rfl
      rw [hkey, htracks.indexed.contains_of_nodes htracks.nodes]
      rintro hmem
      obtain ⟨x, hx, hsig⟩ := List.mem_map.mp hmem
      obtain ⟨pre, n, post, hsplit, rfl⟩ := mem_signedFrom hx
      have htagged := tagged_plainNodes hls'
      rw [hsplit] at htagged
      obtain ⟨z, hz, heq⟩ := eagerKey_marked (plainNodes ls) htagged.left htagged.middle
      rw [Node.signature_resign] at hsig
      have hkind := htagged.middle.kind_unique hl.tags hz (rfl : Marked [])
        (by rw [← heq, hsig, List.append_nil])
      have hn : n.repeats = false := Node.not_repeats (by rw [hkind, hr])
      rw [eagerKey_of_not_repeats _ _ hn] at hsig
      have hmem : n ∈ plainNodes ls := by rw [hsplit]; simp
      obtain ⟨l', hl', rfl⟩ := List.mem_map.mp hmem
      exact hlast l' hl' l (by simp) ((congrArg NodeKind.repetition hkind).trans hr) hr hsig
    · have hfree := Block.not_replaces htracks.indexed (n := l.node 0) hr
      rw [hfree]
      exact Bool.false_ne_true

end Script

section Sound

/-- A form has a label of a script when no name in it has a colon. -/
private theorem Script.Sound.ofScript {f : Form} {label : Label} (h : Script.Sound f)
    (hf : f.label? = some label) (hnames : ∀ x ∈ f.lexemes, x.1 = .ident → ':' ∉ x.2.toList) :
    label.OfScript := by
  cases h with
  | stray => cases hf
  | leaf kind tag first x ls ms split reads =>
    cases hf
    have hplain : PlainNames (ms.map someToken ++ [someToken semicolon]) := by
      rw [PlainNames, List.forall_mem_append]
      refine ⟨fun t ht => ?_, by simp [someToken, semicolon]⟩
      obtain ⟨y, hy, rfl⟩ := List.mem_map.mp ht
      refine hnames y ?_
      rw [Form.lexemes, split]
      exact List.mem_append_left _ hy
    exact ⟨fun _ => rfl, (reads _ [someToken semicolon] (content_someTokens ms) rfl).tags hplain⟩
  | block kind tag header body clauses reads =>
    cases hf
    exact ⟨fun _ => rfl, (reads _ [someToken openingBrace] (content_someTokens header) rfl).tags⟩

/-- A form that stands in a text of a language has a label of the language. -/
theorem Language.Sound.admits {l : Language} {text : List Char} {s : Source} {i : Nat} {f : Form} {label : Label}
    (h : l.Sound f) (hf : f.label? = some label) (hs : l.source text = .ok s) (hspells : s.Spells i f.lexemes) :
    l.Admits label := by
  cases l with
  | markup => exact Markup.Sound.kind h hf
  | script =>
    refine Script.Sound.ofScript h hf fun x hx hident => ?_
    have hmem : x ∈ s.lexemes := List.mem_of_mem_drop (hspells.subset hx)
    obtain ⟨t, ht, rfl⟩ := List.mem_map.mp hmem
    exact Script.colon_not_mem_name hs t ht hident

end Sound

section Language

variable {l : Language} {ls : List Label} {x : Label} {k : String}

/-- A construct that a later one of its tag would replace is known by its tag. -/
theorem key_of_replaces (hls : ∀ x ∈ ls, l.Admits x) (hfresh : labelsRedefine .empty 0 ls = false)
    (h : (k, x) ∈ roll ls) (hr : x.kind.repetition = .replaces) : k = x.tag 0 := by
  cases l with
  | script =>
    obtain ⟨pre, post, -, rfl⟩ := mem_roll_script hls hfresh h
    have hn : (x.node 0).repeats = false := Node.not_repeats hr
    exact eagerKey_of_not_repeats _ _ hn
  | markup =>
    have hkind : x.kind = .element := hls x (List.of_mem_zip h).2
    rw [hkind] at hr
    cases hr

/-- A row of labels redefines nothing when the tags of those that replace are apart. -/
theorem labelsRedefine_of_apart (hls : ∀ x ∈ ls, l.Admits x) (hapart : ls.Pairwise fun x x' =>
    x.kind.repetition = .replaces → x'.kind.repetition = .replaces → x.tag 0 ≠ x'.tag 0) :
    labelsRedefine .empty 0 ls = false := by
  cases l with
  | script => exact labelsRedefine_script hls hapart
  | markup =>
    refine labelsRedefine_of_repeating (fun x hx => ?_) ChildMap.indexed_empty 0
    rw [show x.kind = .element from hls x hx]
    decide

end Language

end ModWeave
