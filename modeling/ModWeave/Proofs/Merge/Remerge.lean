import ModWeave.Proofs.Merge.Fresh
import ModWeave.Proofs.Merge.Reparse

/-! The same mod merged twice. Each construct of the mod is in the merged text, so that the second time one is
added only where it, or one that it stands in, is known there by another signature. -/
namespace ModWeave

/-- What became of a construct `n` that the mod has at the path: `z` of the merged text reads as `n`, or as
what the base has in its place, or both were looked into and the header stayed. -/
inductive Carries (base mod merged : Tree) (path : List String) (n z : Node) : Prop
  | asInMod (same : sameTokens (merged.source.slice z.tokens) (mod.source.slice n.tokens) = true)
  | asInBase (b : Node) (found : base.find? (path ++ [n.signature]) = some b)
      (same : sameTokens (merged.source.slice z.tokens) (base.source.slice b.tokens) = true)
  | inside (opened : OpenAt base mod (path ++ [n.signature]))
      (same : sameHeader merged.source mod.source z n = true)

/-- All constructs that the mod has at the path are in the merged text there, each at a place of its own. But
the one of this signature, which is told apart from others beside it, is known by another one. -/
inductive Rekeyed (base mod merged : Tree) (path : List String) (sig : String) : Prop
  | intro (others held : ChildMap Node) (zs : List Node) (n z : Node)
      (inMod : (mod.find? path).bind Node.children? = some others)
      (inMerged : (merged.find? path).bind Node.children? = some held)
      (places : zs.Subperm held.nodes)
      (carried : List.Forall₂ (Carries base mod merged path) others.nodes zs)
      (pair : (n, z) ∈ others.nodes.zip zs) (known : n.signature = sig) (rekeyed : z.signature ≠ sig)
      (apart : z.kind.repetition ≠ .replaces)

section Same

variable {s t u : Source} {a b c : Node}

/-- What a node differs inside from, one of the same content does. -/
theorem DifferInside.of_same (ha : a.Keyed) (hb : b.Keyed) (hc : c.Keyed)
    (hsame : sameContent s u a b = true) (h : DifferInside s t a c) : DifferInside u t b c := by
  obtain ⟨hcontent, hcontainer, hmod, hheader⟩ := h
  cases a with
  | leaf => cases hcontainer
  | container =>
    cases b with
    | leaf => simp [sameContent] at hsame
    | container =>
      refine ⟨?_, rfl, hmod, sameHeader_trans (sameHeader_symm (sameContent_container.mp hsame).1) hheader⟩
      rw [← Bool.not_eq_true] at hcontent ⊢
      exact fun h => hcontent (ha.sameContent_trans hb hc hsame h)

end Same

section Standing

variable {l : Language} {s t : Source} {i j : Nat} {f : Form} {label : Label} {n z : Node}

theorem Standing.kind_eq (h : Standing l s i f n) (hlabel : f.label? = some label) : n.kind = label.kind := by
  cases h.depicts <;> cases hlabel <;> rfl

/-- Nodes that stand for one form read alike. -/
theorem Standing.sameTokens (h : Standing l s i f n) (h' : Standing l t j f z) :
    ModWeave.sameTokens (s.slice n.tokens) (t.slice z.tokens) = true := by
  rw [ModWeave.sameTokens, h.tokens, h'.tokens, h.spells.slice, h'.spells.slice, beq_self_eq_true]

/-- So they have the same content. -/
theorem Standing.sameContent (h : Standing l s i f n) (h' : Standing l t j f z) :
    ModWeave.sameContent s t n z = true :=
  (sameContent_iff h.depicts h.spells h'.depicts h'.spells).mpr
    ((sameContent_iff h.depicts h.spells h.depicts h.spells).mp h.depicts.keyed.sameContent_refl)

/-- A node that stands for a block has its header. -/
theorem Standing.header {header : List Lexeme} {opening closing : Lexeme} {body clauses : List Form}
    {trail : List Lexeme} (h : Standing l s i (.block label header opening body closing clauses trail) n) :
    (s.slice n.header).map Token.content = header := by
  have hspells := h.spells
  rw [Form.lexemes] at hspells
  cases h.depicts
  exact hspells.left.slice

end Standing

section Placed

variable {l : Language} {s t u : Source} {text text' text'' : List Char} {body clauses : List Form} {i k : Nat}
  {m m' mz : ChildMap Node} {ns cs : List Node}

/-- The children of a container that two others are blended to. `keys` are the signatures that they come with
and `place` tells where each of these is now. -/
structure Placed (l : Language) (s t u : Source) (m m' mz : ChildMap Node) (keys : List String)
    (place : String → Node) : Prop where
  apart : keys.Nodup
  covers : ∀ n ∈ m'.nodes, n.signature ∈ keys
  nodes : mz.nodes = keys.map place
  comes : ∀ k ∈ keys, ∃ f j, ComesFrom l s t m m' k f ∧ Standing l u j f (place k)
  plain : ∀ k ∈ keys, (place k).kind.repetition = .replaces → (place k).signature = k

/-- Once they are read, blended forms are children at places of their own. -/
theorem Blends.placed (hs : l.source text = .ok s) (ht : l.source text' = .ok t) (hu : l.source text'' = .ok u)
    (h : Blends l s t m m' (body ++ clauses)) (lanes : Lanes l u i k body clauses mz ns cs) :
    ∃ keys place, Placed l s t u m m' mz keys place := by
  obtain ⟨rows, base, mod, made, apart, covers, each⟩ := h
  have hall := lanes.forall₂
  rw [← made, List.forall₂_map_left_iff] at hall
  have : Nonempty Node := ⟨.leaf ⟨"", .root, ⟨0, 0⟩, 0, none⟩⟩
  have hkeys : List.Forall₂ (fun k z => ∃ f, (k, f) ∈ rows ∧ ∃ j, Standing l u j f z) (rows.map Prod.fst)
      mz.nodes := by
    rw [List.forall₂_map_left_iff]
    exact forall₂_imp_of_mem hall fun p hp z hz => ⟨p.2, hp, hz⟩
  obtain ⟨place, hnodes, hplace⟩ := exists_map_of_forall₂ hkeys apart
  refine ⟨rows.map Prod.fst, place, apart, fun n hn => ?_, hnodes, fun k hk => ?_, fun k hk hr => ?_⟩
  · obtain ⟨f, hf⟩ := covers n hn
    exact List.mem_map.mpr ⟨_, hf, rfl⟩
  · obtain ⟨f, hf, j, hstand⟩ := hplace k hk
    exact ⟨f, j, each _ hf, hstand⟩
  · obtain ⟨f, hf, j, hstand⟩ := hplace k hk
    obtain ⟨label, hlabel, -, htag⟩ := (each _ hf).tag_of_replaces base mod hs ht
    obtain ⟨label', hlabel', hroll⟩ := lanes.mem_roll (hnodes ▸ List.mem_map_of_mem hk) hstand
    cases hlabel.symm.trans hlabel'
    rw [hstand.kind_eq hlabel] at hr
    exact (key_of_replaces (lanes.admits hu) lanes.fresh hroll hr).trans (htag hr).symm

end Placed

/-- A container that both sides have at the path and that is looked into, and the merged one, which is made of
the forms that the two are blended to. -/
inductive BlendedAt (l : Language) (base mod merged : Tree) (path : List String) : Prop
  | intro {x y z : Node} {m m' mz : ChildMap Node} {i k : Nat} {body clauses : List Form} {ns cs : List Node}
      (opened : OpenAt base mod path) (inBase : base.find? path = some x) (inMod : mod.find? path = some y)
      (inMerged : merged.find? path = some z) (children : x.children? = some m) (children' : y.children? = some m')
      (held : z.children? = some mz) (blends : Blends l base.source mod.source m m' (body ++ clauses))
      (lanes : Lanes l merged.source i k body clauses mz ns cs)

theorem BlendedAt.opened {l : Language} {base mod merged : Tree} {path : List String}
    (h : BlendedAt l base mod merged path) : OpenAt base mod path := by
  cases h
  assumption

section Walk

variable {l : Language} {base mod merged : Tree} {fs gs forms : List Form} {path : List String} {sig : String}
  {b x y z n : Node} {m m' mz : ChildMap Node} {j : Nat} {f : Form} {keys : List String} {place : String → Node}

/-- What became of a construct of the mod. -/
private theorem carries_of_comesFrom (opened : OpenAt base mod path) (inBase : base.find? path = some x)
    (inMod : mod.find? path = some y) (children : x.children? = some m) (children' : y.children? = some m')
    (htwin : m'.get? n.signature = some n) (h : ComesFrom l base.source mod.source m m' n.signature f)
    (hstand : Standing l merged.source j f z) : Carries base mod merged path n z := by
  cases h with
  | kept b found standing =>
    exact .asInBase b ((Tree.find?_concat inBase children _).trans found) (hstand.sameTokens standing)
  | taken twin found standing =>
    cases htwin.symm.trans found
    exact .asInMod (hstand.sameTokens standing)
  | inside b twin found found' differ standing =>
    cases htwin.symm.trans found'
    refine .inside (.inside opened ((Tree.find?_concat inBase children _).trans found)
      ((Tree.find?_concat inMod children' _).trans htwin) differ) ?_
    refine sameHeader_trans (b := b) ?_ differ.header
    rw [sameHeader, sameTokens, hstand.header, standing.header, beq_self_eq_true]

/-- A child of the mod that is not known by its signature is known by another one. -/
private theorem rekeyed_of_placed (opened : OpenAt base mod path) (inBase : base.find? path = some x)
    (inMod : mod.find? path = some y) (inMerged : merged.find? path = some z) (children : x.children? = some m)
    (children' : y.children? = some m') (held : z.children? = some mz) (hm' : m'.Indexed)
    (hmz : mz.Indexed) (h : Placed l base.source mod.source merged.source m m' mz keys place) (hb : m'.get? sig = some b)
    (hsig : (place sig).signature ≠ sig) : Rekeyed base mod merged path sig := by
  obtain ⟨hbmem, rfl⟩ := hm'.get?_eq_some.mp hb
  have hplaces : (keys.map place).Nodup := h.nodes ▸ hmz.nodup.of_map _
  have hzs : (m'.nodes.map fun n => place n.signature).Nodup := by
    have hnodup : m'.nodes.Nodup := hm'.nodup.of_map _
    refine hnodup.map_on fun n hn n' hn' heq => ?_
    exact List.inj_on_of_nodup_map hm'.nodup hn hn'
      (List.inj_on_of_nodup_map hplaces (h.covers n hn) (h.covers n' hn') heq)
  refine .intro m' mz _ b (place b.signature) ?_ ?_ (hzs.subperm ?_) ?_ ?_ rfl hsig fun hr => ?_
  · rw [inMod, Option.bind_some, children']
  · rw [inMerged, Option.bind_some, held]
  · intro z hz
    obtain ⟨n, hn, rfl⟩ := List.mem_map.mp hz
    exact h.nodes ▸ List.mem_map_of_mem (h.covers n hn)
  · rw [List.forall₂_map_right_iff, List.forall₂_same]
    intro n hn
    obtain ⟨f, j, hcomes, hstand⟩ := h.comes _ (h.covers n hn)
    exact carries_of_comesFrom opened inBase inMod children children' (hm'.get?_eq_some.mpr ⟨hn, rfl⟩) hcomes hstand
  · rw [← List.map_prod_left_eq_zip]
    exact List.mem_map.mpr ⟨b, hbmem, rfl⟩
  · exact hsig (h.plain _ (h.covers b hbmem) hr)

/-- A construct of the mod in a blended container is known by another signature in the merged text, or by its
own, and then it comes from the children of that signature. -/
private theorem BlendedAt.child (hbase : l.Written base fs) (hmod : l.Written mod gs)
    (hmerged : l.Written merged forms) (h : BlendedAt l base mod merged path)
    (hb : mod.find? (path ++ [sig]) = some b) :
    Rekeyed base mod merged path sig ∨ ∃ (z : Node) (f : Form) (j : Nat) (m m' : ChildMap Node),
      merged.find? (path ++ [sig]) = some z ∧ Standing l merged.source j f z ∧
      (∀ sig, base.find? (path ++ [sig]) = m.get? sig) ∧ (∀ sig, mod.find? (path ++ [sig]) = m'.get? sig) ∧
      ComesFrom l base.source mod.source m m' sig f := by
  obtain ⟨opened, inBase, inMod, inMerged, children, children', held, blends, lanes⟩ := h
  obtain ⟨keys, place, hplaced⟩ := blends.placed hbase.source hmod.source hmerged.source lanes
  have hm' := (hmod.keyed.1.find inMod).indexed children'
  have hget := (Tree.find?_concat inMod children' sig).symm.trans hb
  by_cases hsig : (place sig).signature = sig
  · right
    have hkey : sig ∈ keys := by
      obtain ⟨hbmem, rfl⟩ := hm'.get?_eq_some.mp hget
      exact hplaced.covers b hbmem
    obtain ⟨f, j, hcomes, hstand⟩ := hplaced.comes sig hkey
    refine ⟨_, f, j, _, _, ?_, hstand, Tree.find?_concat inBase children, Tree.find?_concat inMod children', hcomes⟩
    rw [Tree.find?_concat inMerged held, lanes.indexed.get?_eq_some]
    exact ⟨hplaced.nodes ▸ List.mem_map_of_mem hkey, hsig⟩
  · exact .inl (rekeyed_of_placed opened inBase inMod inMerged children children' held hm' lanes.indexed hplaced
      hget hsig)

/-- Where the merged text differs from the mod inside of a construct that it has under the mod's signature, that
was looked into. -/
private theorem BlendedAt.step (hbase : l.Written base fs) (hmod : l.Written mod gs)
    (hmerged : l.Written merged forms) (h : BlendedAt l base mod merged path)
    (ha : merged.find? (path ++ [sig]) = some a) (hb : mod.find? (path ++ [sig]) = some b)
    (hdiffer : DifferInside merged.source mod.source a b) :
    BlendedAt l base mod merged (path ++ [sig]) ∨ Rekeyed base mod merged path sig := by
  rcases h.child hbase hmod hmerged hb with hrekeyed | ⟨z, f, j, m, m', hz, hstand, hfind, hfind', hcomes⟩
  · exact .inr hrekeyed
  cases ha.symm.trans hz
  have hkeyed' := hmod.keyed.1.find hb
  have hget : m'.get? sig = some b := (hfind' sig).symm.trans hb
  cases hcomes with
  | kept n found standing closed =>
    -- it is what the base has, and that was not looked into
    have hn := (hfind sig).trans found
    have hdiffer := hdiffer.of_same (hmerged.keyed.1.find ha) (hbase.keyed.1.find hn) hkeyed'
      (hstand.sameContent standing)
    exact absurd hdiffer (closed b hget)
  | taken twin found standing =>
    cases hget.symm.trans found
    have hsame := hstand.sameContent standing
    rw [hdiffer.content] at hsame
    cases hsame
  | inside n twin found found' differ standing children children' below =>
    cases hget.symm.trans found'
    have hn := (hfind sig).trans found
    cases a with
    | leaf => cases hdiffer.base
    | container hd braces nodes index =>
      obtain ⟨k, _, _, _, _, _, _, _, _, _, heq, hblock⟩ := hstand.blockAt
      cases heq
      exact .inl (.intro (.inside h.opened hn hb differ) hn hb ha children children' rfl below hblock.lanes)

/-- Whatever the merged text differs inside of was looked into, or something above it is known by another
signature. -/
private theorem blendedAt_of_open (hbase : l.Written base fs) (hmod : l.Written mod gs)
    (hmerged : l.Written merged forms) (hroot : BlendedAt l base mod merged [])
    (hopen : OpenAt merged mod path) : BlendedAt l base mod merged path ∨
      ∃ q sig, q ++ [sig] <+: path ∧ Rekeyed base mod merged q sig := by
  induction hopen with
  | root => exact .inl hroot
  | @inside path sig a b parent inMerged inMod differ ih =>
    rcases ih with h | ⟨q, sig', hq, hrekeyed⟩
    · rcases h.step hbase hmod hmerged inMerged inMod differ with h | hrekeyed
      · exact .inl h
      · exact .inr ⟨path, sig, List.prefix_rfl, hrekeyed⟩
    · exact .inr ⟨q, sig', hq.trans (List.prefix_append ..), hrekeyed⟩

/-- What only the mod has there, or something above it, is known by another signature. -/
private theorem rekeyed_of_onlyInMod (hbase : l.Written base fs) (hmod : l.Written mod gs)
    (hmerged : l.Written merged forms) (hroot : BlendedAt l base mod merged [])
    (h : OnlyInMod merged mod path sig) :
    ∃ q sig', q ++ [sig'] <+: path ++ [sig] ∧ Rekeyed base mod merged q sig' := by
  rcases blendedAt_of_open hbase hmod hmerged hroot h.parent with hblended | ⟨q, sig', hq, hrekeyed⟩
  · obtain ⟨b, hb⟩ := Option.isSome_iff_exists.mp h.inMod
    rcases hblended.child hbase hmod hmerged hb with hrekeyed | ⟨z, -, -, -, -, hz, -⟩
    · exact ⟨path, sig, List.prefix_rfl, hrekeyed⟩
    · cases h.absent.symm.trans hz
  · exact ⟨q, sig', hq.trans (List.prefix_append ..), hrekeyed⟩

end Walk

section Remerge

variable {l : Language} {text text' out : List Char} {base mod merged : Tree} {names : SourceNames}
  {c : Changes} {choice : Conflict → Choice} {fs gs forms : List Form}

private theorem blendedAt_root (hbase : l.Written base fs) (hmod : l.Written mod gs)
    (h : Settlement.MergesAll ⟨l, names, base, mod, choice⟩ gs c out forms) (hmerged : l.parse out = .ok merged) :
    l.Written merged forms ∧ BlendedAt l base mod merged [] := by
  obtain ⟨hd, m, ns, hroot, -⟩ := hbase.lanes
  obtain ⟨hd', m', ns', hroot', -⟩ := hmod.lanes
  have hm : base.root.children? = some m := by rw [hroot]; rfl
  have hm' : mod.root.children? = some m' := by rw [hroot']; rfl
  have hblends : Blends l base.source mod.source m m' forms := h.blends m m' hm hm'
  obtain ⟨hany, hlabels⟩ := hblends.fresh hbase.source hmod.source
  have hwritten := written_of_lexemes h.lexemes h.sound (by rw [hany, hlabels]; rfl) hmerged
  obtain ⟨hd'', mz, nz, hroot'', hlanes⟩ := hwritten.lanes
  refine ⟨hwritten, .intro .root rfl rfl rfl hm hm' ?_ (by rwa [List.append_nil]) hlanes⟩
  rw [hroot'']
  rfl

/-- Merging the same mod once more inserts no construct that the merged text lacks. Whatever is chosen for the
records, a second diff adds a construct only where that, or one that it stands in, is in the merged text already
and known there by another signature than in the mod. -/
theorem second_merge_inserts_only_rekeyed (names names' : SourceNames) (hbase : l.parse text = .ok base)
    (hmod : l.parse text' = .ok mod) (htidy : l = .script → Script.Tidy base ∧ Script.Tidy mod)
    (hne : l = .script → ∀ m, base.root.children? = some m → m.nodes ≠ []) :
    ∃ c, diff names base mod = some c ∧ ∀ choice : Conflict → Choice, ∃ out,
      materialize base (c.settledBy choice) = .ok out ∧ ∀ merged, l.parse out = .ok merged →
        ∃ c', diff names' merged mod = some c' ∧ ∀ a ∈ c'.additions,
          ∃ q sig, q ++ [sig] <+: a.parent ++ [a.signature] ∧ Rekeyed base mod merged q sig := by
  obtain ⟨fs, hfs⟩ := Script.Tidy.exists_written hbase fun hl => (htidy hl).1
  obtain ⟨gs, hgs⟩ := Script.Tidy.exists_written hmod fun hl => (htidy hl).2
  obtain ⟨c, hc⟩ := diff_completes names base hmod hgs.not_redefines
  refine ⟨c, hc, fun choice => ?_⟩
  obtain ⟨out, forms, h⟩ := Settlement.exists_mergesAll (w := ⟨l, names, base, mod, choice⟩) hfs hgs hne hc
  refine ⟨out, h.made, fun merged hmerged => ?_⟩
  obtain ⟨hwritten, hroot⟩ := blendedAt_root hfs hgs h hmerged
  obtain ⟨c', hc'⟩ := diff_completes names' merged hmod hgs.not_redefines
  refine ⟨c', hc', fun a ha => rekeyed_of_onlyInMod hfs hgs hwritten hroot ?_⟩
  exact (exactAt_of_diff hmerged hmod hc').mem_additions.mp ⟨a, ha, rfl, rfl⟩

set_option maxRecDepth 100000 in
/-- Beside a call of the mod the calls of the base get other arguments, but they are one call each in the
mod. -/
theorem second_merge_of_another_call :
    ∃ base mod c out merged c', Language.script.parse "f(1); f(2);".toList = .ok base ∧
      Language.script.parse "f(3);".toList = .ok mod ∧ diff ⟨"run.ndf", "game", "mod"⟩ base mod = some c ∧
      materialize base (c.settledBy fun _ => .keepBase) = .ok out ∧ out = "f(3);\nf(1); f(2);".toList ∧
      Language.script.parse out = .ok merged ∧ diff ⟨"run.ndf", "merged", "mod"⟩ merged mod = some c' ∧
      c'.additions.length = 1 ∧ ∀ a ∈ c'.additions,
        ∃ q sig, q ++ [sig] <+: a.parent ++ [a.signature] ∧ Rekeyed base mod merged q sig := by
  obtain ⟨base, mod, c, hbase, hmod, hc, hcomputed⟩ := exists_diff
    (P := fun base mod c => isTidyMerge base mod &&
      (materialize base (c.settledBy fun _ => .keepBase)).toOption == some "f(3);\nf(1); f(2);".toList)
    .script ⟨"run.ndf", "game", "mod"⟩ "f(1); f(2);".toList "f(3);".toList (by decide +kernel)
  rw [Bool.and_eq_true, beq_iff_eq] at hcomputed
  obtain ⟨htidy, hmade⟩ := hcomputed
  obtain ⟨htidy, htidy', hne⟩ := tidy_of_isTidyMerge htidy
  obtain ⟨merged, mod', c', hmerged, hmod', hc', hadditions⟩ := exists_diff
    (P := fun _ _ c => c.additions.length == 1)
    .script ⟨"run.ndf", "merged", "mod"⟩ "f(3);\nf(1); f(2);".toList "f(3);".toList (by decide +kernel)
  rw [hmod] at hmod'
  cases hmod'
  obtain ⟨c₁, hc₁, hmerges⟩ := second_merge_inserts_only_rekeyed ⟨"run.ndf", "game", "mod"⟩
    ⟨"run.ndf", "merged", "mod"⟩ hbase hmod (fun _ => ⟨htidy, htidy'⟩) fun _ => hne
  rw [hc] at hc₁
  cases hc₁
  obtain ⟨out, hout, hsecond⟩ := hmerges fun _ => .keepBase
  rw [ok_of_toOption hmade] at hout
  cases hout
  obtain ⟨c₂, hc₂, hrekeyed⟩ := hsecond merged hmerged
  rw [hc'] at hc₂
  cases hc₂
  exact ⟨base, mod, c, _, merged, c', hbase, hmod, hc, ok_of_toOption hmade, rfl, hmerged, hc',
    beq_iff_eq.mp hadditions, hrekeyed⟩

/-- With the base kept where the sides differ, the mod is merged to a text that parses, and a second diff has
additions. -/
def InsertsAgain (l : Language) (text text' : String) : Prop :=
  ∃ base mod c out merged c', l.parse text.toList = .ok base ∧ l.parse text'.toList = .ok mod ∧
    diff ⟨"run.ndf", "game", "mod"⟩ base mod = some c ∧
    materialize base (c.settledBy fun _ => .keepBase) = .ok out ∧ l.parse out = .ok merged ∧
    diff ⟨"run.ndf", "merged", "mod"⟩ merged mod = some c' ∧ c'.additions ≠ []

private theorem insertsAgain_of_computed {text text' : String}
    (h : ((l.parse text.toList).toOption.bind fun base => (l.parse text'.toList).toOption.bind fun mod =>
      (diff ⟨"run.ndf", "game", "mod"⟩ base mod).map fun c =>
        ((materialize base (c.settledBy fun _ => .keepBase)).toOption.bind fun out =>
          (l.parse out).toOption.bind fun merged => (diff ⟨"run.ndf", "merged", "mod"⟩ merged mod).map
            (!·.additions.isEmpty)) == some true) = some true) : InsertsAgain l text text' := by
  obtain ⟨base, mod, c, hbase, hmod, hc, hcomputed⟩ := exists_diff l _ _ _ h
  obtain ⟨out, hout, hcomputed⟩ := Option.bind_eq_some_iff.mp (beq_iff_eq.mp hcomputed)
  obtain ⟨merged, hmerged, hcomputed⟩ := Option.bind_eq_some_iff.mp hcomputed
  obtain ⟨c', hc', hadditions⟩ := Option.map_eq_some_iff.mp hcomputed
  refine ⟨base, mod, c, out, merged, c', hbase, hmod, hc, ok_of_toOption hout, ok_of_toOption hmerged, hc', ?_⟩
  rw [Bool.not_eq_true', List.isEmpty_eq_false_iff] at hadditions
  exact hadditions

set_option maxRecDepth 100000 in
/-- A second merge inserts constructs again: where calls or elements are re-keyed, where a statement runs into
the next one, where the mod redefines what the base has once, and where the base is a comment. -/
theorem second_merge_inserts_again :
    InsertsAgain .script "f(1); f(2);" "f(3);" ∧
    InsertsAgain .markup "<r><x/><k/><y/></r>" "<r><x/><q/><y/></r>" ∧
    InsertsAgain .script "int x = a" "int x = a;f(2);" ∧
    InsertsAgain .script "h();x();" "h();int y = b x();" ∧
    InsertsAgain .script "sub s() \x7b x(); \x7d p();"
      "sub s() \x7b \x7d p(); sub s() \x7b \x7d g(); sub s() \x7b x(); \x7d" ∧
    InsertsAgain .script "// c" "f();" := by
  refine ⟨?_, ?_, ?_, ?_, ?_, ?_⟩ <;> exact insertsAgain_of_computed (by decide +kernel)

end Remerge

end ModWeave
