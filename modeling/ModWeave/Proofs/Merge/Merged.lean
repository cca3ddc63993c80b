import ModWeave.Proofs.Merge.Completion
import ModWeave.Proofs.Merge.Inside

/-! The merged text reads as sound forms. With the mod's side taken everywhere they are what the mod's text
reads as, statement by statement. -/
namespace ModWeave

section Written

variable {l : Language} {t u : Tree} {fs gs : List Form}

private theorem Language.Written.spells (h : l.Written t fs) : t.source.Spells 0 (lexemesAll fs) := by
  have hlexemes : lexemesAll fs = t.source.lexemes.drop 0 := by rw [h.lexemes, List.drop_zero]
  exact hlexemes ▸ List.prefix_rfl

private theorem Language.Written.root (h : l.Written t fs) : ∃ hd m, t.root = .container hd none m.nodes m.index ∧
    Inside t.source 0 0 fs [] m := by
  have hfresh : (anyRedefines fs || anyRedefines [] ||
      labelsRedefine .empty 0 (labelsOf fs ++ labelsOf [])) = false := by
    simpa [anyRedefines] using h.fresh
  have hinside := inside_of_constructs hfresh t.source 0 0
  rw [constructsAll, List.append_nil] at hinside
  exact ⟨_, _, congrArg Tree.root h.tree, hinside⟩

/-- The root of a tree that is made of forms has them in its one lane. -/
theorem Language.Written.lanes (h : l.Written t fs) : ∃ hd m ns, t.root = .container hd none m.nodes m.index ∧
    Lanes l t.source 0 0 fs [] m ns [] := by
  obtain ⟨hd, m, hroot, ⟨ns, cs, hnodes, hns, hcs⟩, hkeys, hindexed, hfresh⟩ := h.root
  cases hcs
  refine ⟨hd, m, ns, hroot, hnodes, ⟨hns, h.spells, trivial, fun f hf => (h.sound f hf).1⟩,
    ⟨.nil 0, List.nil_prefix, trivial, by simp⟩, fun f hf => (h.sound f hf).2, by simp, hkeys, hindexed, hfresh⟩

theorem Language.Written.not_redefines (h : l.Written t fs) (cs : List Construct)
    (hcs : l.constructs t.source = .ok cs) : redefinesAmong .empty cs = false := by
  rw [Language.constructs_of_forms h.lexemes h.sound h.ordered] at hcs
  cases hcs
  rw [redefinesAmong_constructsAll, Block.bare_empty]
  exact h.fresh

theorem Language.Written.keyed (h : l.Written t fs) : t.root.Keyed ∧ t.root.isContainer = true := by
  rw [h.tree]
  exact ⟨Tree.keyed_ofConstructs _ _, rfl⟩

/-- Trees of which the forms agree one by one have the same content. -/
theorem Language.Written.sameContent (h : l.Written t fs) (h' : l.Written u gs)
    (hagrees : List.Forall₂ Agrees (solids fs) (solids gs)) : t.sameContent u := by
  obtain ⟨hd, m, hroot, hinside⟩ := h.root
  obtain ⟨hd', m', hroot', hinside'⟩ := h'.root
  have hall := hinside.forall₂ h.spells List.nil_prefix
  have hall' := hinside'.forall₂ h'.spells List.nil_prefix
  have hnone : List.Forall₂ Agrees (solids []) (solids []) := .nil
  have hkeyed := keyed_of_agrees hagrees hnone
  unfold Tree.sameContent
  rw [hroot, hroot', sameContent_container]
  refine ⟨?_, ?_, fun n hn => ?_⟩
  · simp [sameHeader, sameTokens, Node.header, Node.braces?, Source.slice]
  · rw [← hall.length_eq, ← hall'.length_eq, hkeyed.length_eq]
  · obtain ⟨p, hp, hsig, i, hdep, hspells⟩ := exists_of_forall₂_right hall hn
    obtain ⟨q, hq, hkey, hpq⟩ := exists_of_forall₂_left hkeyed hp
    obtain ⟨n', hn', hsig', j, hdep', hspells'⟩ := exists_of_forall₂_left hall' hq
    refine ⟨n', hinside'.indexed.get?_eq_some.mpr ⟨hn', ?_⟩, ?_⟩
    · rw [hsig', hsig, hkey]
    · exact (sameContent_iff hdep hspells hdep' hspells').mpr hpq.same

end Written

namespace Settlement

/-- What the merged text reads as. -/
structure MergesAll (w : Settlement) (gs : List Form) (c : Changes) (out : List Char) (forms : List Form) :
    Prop where
  made : materialize w.base (c.settledBy w.choice) = .ok out
  lexemes : w.language.lexemes? out = some (lexemesAll forms)
  sound : ∀ f ∈ forms, w.language.Sound f ∧ f.isClause = false
  ordered : w.language = .script → (orderedAll forms = true ↔ ∀ a ∈ c.additions, w.Clear a)
  agrees : c.TakesMod w.choice → inSameOrder w.base.source w.mod.source w.base.root w.mod.root = true →
    List.Forall₂ Agrees (solids forms) (solids gs)
  blends : ∀ m m', w.base.root.children? = some m → w.mod.root.children? = some m' →
    Blends w.language w.base.source w.mod.source m m' forms

section Root

variable {w : Settlement} {fs gs : List Form} {hd hd' : Head} {m m' : ChildMap Node} {ns ns' : List Node}
  {x y : Node} {parts : List Changes} {as : List Addition}

/-- The children of a root from token `i` and byte `lo` on. In a document without elements `lo` is where
the text ends. -/
structure RootStart (l : Language) (s : Source) (i lo : Nat) (rest : List Form) (ns : List Node) : Prop where
  standing : StandingAll l s i rest ns
  cut : s.Cut l lo i
  before : ∀ n ∈ ns, lo ≤ (n.span s).1
  bare : ns = [] → rest = [] ∧ s.Cut l lo s.tokens.length
  first : ns ≠ [] → rest ≠ [] ∧ lo = s.startAt i

private theorem exists_start {l : Language} {s : Source} (hs : s.Cuts l)
    (hlanes : Lanes l s 0 0 fs [] m ns []) (hlexemes : s.lexemes = lexemesAll fs)
    (hne : l = .script → ns ≠ []) :
    ∃ pre rest lo, fs = pre ++ rest ∧ solids pre = [] ∧ RootStart l s (lexemesAll pre).length lo rest ns ∧
      ∀ (t : Source) (x y n : Node), n.kind.isClause = false → frontOf ⟨s, t, x, y, m⟩ n = lo := by
  have hnodes := hlanes.nodes
  rw [List.append_nil] at hnodes
  have hshares (n n' : Node) (hn : n.kind.isClause = false) (hn' : n' ∈ ns) : n.sharesLane n' = true := by
    rw [Node.sharesLane, hn, hlanes.statement hn']
    rfl
  cases ns with
  | nil =>
    -- only a document has no children, and it has no tokens then
    obtain rfl : l = .markup := by
      cases l with
      | script => exact absurd rfl (hne rfl)
      | markup => rfl
    obtain rfl : fs = [] := by
      refine List.eq_nil_iff_forall_not_mem.mpr fun f hf => ?_
      have hsolid : f ∈ solids fs := by
        refine List.mem_filter.mpr ⟨hf, ?_⟩
        cases (show Markup.Sound f from hlanes.statements.sound f hf) with
        | leaf | block => rfl
      rw [hlanes.statements.strays] at hsolid
      cases hsolid
    have htokens : s.tokens = [] := List.map_eq_nil_iff.mp hlexemes
    have hcut := hs.startAt 0 trivial (.inr rfl)
    refine ⟨[], [], s.startAt 0, rfl, rfl, ⟨hlanes.statements, hcut, by simp, fun _ => ⟨rfl, ?_⟩, by simp⟩, ?_⟩
    · rwa [htokens]
    · intro t x y n hn
      simp [frontOf, hnodes, Source.startAt, htokens]
  | cons first ns =>
    obtain ⟨pre, f, post, rfl, hpre, hfirst, hpost⟩ :=
      (show StandingAll l s 0 fs ([] ++ first :: ns) from hlanes.statements).split
    rw [Nat.zero_add] at hfirst hpost
    have hlt := hfirst.stop_le
    have hpos := f.length_pos
    have hspells := hlanes.statements.spells
    rw [lexemesAll_append] at hspells
    have hstanding : StandingAll l s (lexemesAll pre).length (f :: post) (first :: ns) :=
      ⟨.solid hfirst.depicts hpost.depicts, by simpa using hspells.right, hfirst.closed,
        fun f hf => hlanes.statements.sound f (List.mem_append_right _ hf)⟩
    refine ⟨pre, f :: post, s.startAt (lexemesAll pre).length, rfl, hpre.strays,
      ⟨hstanding, hs.startAt _ hfirst.closed (.inl (by omega)), fun n hn => ?_, by simp, by simp⟩, ?_⟩
    · obtain ⟨j, g, -, hstand, hlo, -⟩ := hstanding.within hn
      rw [hstand.span]
      exact hs.laidOut.startAt_mono hlo
    · intro t x y n hn
      rw [frontOf, hnodes, List.find?_cons_of_pos (hshares n first hn List.mem_cons_self)]
      change (first.span s).1 = _
      rw [hfirst.span]

variable {path : List String} {i lo : Nat} {pre rest body' : List Form} {rows all : Rows}
  {part : Node → Changes} {result : Node → List Form} {grafts : List Graft}

/-- The children of a root are woven. -/
private theorem weave_root (hs : w.base.source.Cuts w.language)
    (hlexemes : w.base.source.lexemes = lexemesAll (pre ++ rest))
    (hstart : RootStart w.language w.base.source (lexemesAll pre).length lo rest ns)
    (h : LaneMerge w path m m' false (lexemesAll pre).length lo rest body' ns rows all part result grafts) :
    ∃ hi woven, Outcome rest ns w.base.source grafts result woven ∧
      w.base.source.Cut w.language hi w.base.source.tokens.length ∧
      Renders w.language w.base.source 0 hi
        ((ns.flatMap fun n => (part n).chosen w.choice) ++
          ((ns.flatMap fun n => (part n).inserted) ++ Graft.edits grafts))
        (lexemesAll (pre ++ (graftsAt grafts lo ++ woven))) := by
  have htake : w.base.source.lexemes.take (lexemesAll pre).length = lexemesAll pre := by
    rw [hlexemes, lexemesAll_append, List.take_left]
  have hlen : w.base.source.tokens.length = (lexemesAll pre).length + (lexemesAll rest).length := by
    have := congrArg List.length hlexemes
    rwa [Source.lexemes, List.length_map, lexemesAll_append, List.length_append] at this
  by_cases hne : ns = []
  · obtain ⟨rfl, hcut⟩ := hstart.bare hne
    subst hne
    have hkeep := Renders.keep hstart.cut hstart.cut (Nat.le_refl _) (Nat.le_refl _)
    have hempty : (w.base.source.lexemes.take (lexemesAll pre).length).drop (lexemesAll pre).length = [] := by
      simp
    rw [hempty] at hkeep
    have hwoven : Woven w.language w.base.source lo lo grafts [] [] [] :=
      .of_renders hkeep (by simp) fun g hg => by omega
    have hrange : ∀ g ∈ grafts, lo ≤ g.addition.offset ∧ g.addition.offset ≤ lo := by
      intro g hg
      obtain ⟨-, -, -, heq | ⟨n, hn, -⟩⟩ := h.place hg
      · omega
      · cases hn
    refine ⟨lo, [], ⟨rfl, by simp⟩, hcut, ?_⟩
    have hfront := hwoven.front hstart.cut (Nat.le_refl _) hrange h.reads
    rw [htake] at hfront
    simpa using hfront
  · obtain ⟨hrest, hlo⟩ := hstart.first hne
    obtain ⟨woven, hwoven, ho⟩ := h.weave hs hstart.cut (Nat.le_of_eq hlo) (fun hnil => absurd hnil hrest)
      h.reads (fun g hg => .inl hg) fun _ _ => rfl
    have hend (n : Node) (hn : n ∈ ns) : lo < (n.span w.base.source).2 ∧
        (n.span w.base.source).2 ≤ w.base.source.endAt ((lexemesAll pre).length + (lexemesAll rest).length) := by
      have hbytes := hstart.standing.bytes hs hn
      exact ⟨Nat.lt_of_le_of_lt (hstart.before n hn) hbytes.2.1, hbytes.2.2⟩
    obtain ⟨n₀, hn₀⟩ := List.exists_mem_of_ne_nil ns hne
    have hle := hend n₀ hn₀
    have hrange : ∀ g ∈ grafts, lo ≤ g.addition.offset ∧ g.addition.offset ≤
        w.base.source.endAt ((lexemesAll pre).length + (lexemesAll rest).length) := by
      intro g hg
      obtain ⟨-, -, -, heq | ⟨n, hn, heq, -⟩⟩ := h.place hg
      · omega
      · have := hend n hn
        omega
    refine ⟨w.base.source.endAt ((lexemesAll pre).length + (lexemesAll rest).length), woven, ho, ?_, ?_⟩
    · rw [hlen]
      exact hs.endAt _ hstart.standing.closed_stop
    · have hfront := hwoven.front hstart.cut (by omega) hrange h.reads
      rw [htake] at hfront
      simpa using hfront

/-- The roots are merged when the children that are looked into are. -/
private theorem mergesAll_of_parts (hs : w.base.source.Cuts w.language) (ht : w.mod.source.Cuts w.language)
    (hbase : w.language.Written w.base fs) (hmod : w.language.Written w.mod gs)
    (hx : w.base.root.children? = some m) (hy : w.mod.root.children? = some m')
    (hne : w.language = .script → m.nodes ≠ [])
    (hparts : List.Forall₂ (ChildPart w.names w.base.source w.mod.source w.Known [] m') m.nodes parts)
    (has : List.Forall₂ (AdditionOf ⟨w.base.source, w.mod.source, w.base.root, w.mod.root, m⟩ [])
      ((splits [] m'.nodes).filter fun z => !m.contains z.2.1.signature) as) :
    ∃ out forms,
      w.MergesAll gs ⟨parts.flatMap Changes.conflicts, parts.flatMap Changes.additions ++ as⟩ out forms := by
  obtain ⟨hd, m₁, ns, hroot, hlanes⟩ := hbase.lanes
  obtain ⟨hd', m₁', ns', hroot', hlanes'⟩ := hmod.lanes
  obtain rfl : m = m₁ := by
    rw [hroot] at hx
    exact (Option.some.inj hx).symm
  obtain rfl : m' = m₁' := by
    rw [hroot'] at hy
    exact (Option.some.inj hy).symm
  have hnodes := hlanes.nodes
  rw [List.append_nil] at hnodes
  obtain ⟨pre, rest, lo, rfl, hpre, hstart, hfront⟩ :=
    exists_start hs hlanes hbase.lexemes fun hl => hnodes ▸ hne hl
  obtain ⟨rows, rows₂, part, result, grafts, grafts₂, rfl, rfl, hlisted, hlisted₂, hlane, hchain⟩ :=
    exists_laneMerges lo 0 hs ht hlanes hlanes' (by simpa using hbase.ordered) (by simpa using hmod.ordered)
      hparts has
      (fun n hn => .front (by simp [laneStart, hroot, Node.braces?])
        (hfront _ _ _ n (hlanes'.statement hn)).symm) (by simp)
  obtain rfl := hchain.no_grafts
  have hlane := hlane.skip hpre (by simpa using hstart.standing)
  rw [Nat.zero_add] at hlane
  obtain ⟨hi, woven, ho, hcut, hrenders⟩ := weave_root hs hbase.lexemes hstart hlane
  obtain ⟨out, hsplice, hout⟩ := hrenders.finish hbase.source hcut
  have hparts : (⟨(m.nodes.map part).flatMap Changes.conflicts, (m.nodes.map part).flatMap Changes.additions ++
      (grafts ++ []).map Graft.addition⟩ : Changes) = .ofParts ns part grafts := by
    simp only [Changes.ofParts, List.flatMap_map, List.append_nil, hnodes]
  rw [hparts]
  have hends (n : Node) (hn : n ∈ ns) : lo < (n.span w.base.source).2 :=
    Nat.lt_of_le_of_lt (hstart.before n hn) (hstart.standing.bytes hs hn).2.1
  refine ⟨out, pre ++ (graftsAt grafts lo ++ woven), ?_, hout, fun f hf => ?_, fun hl => ?_,
    fun htakes horder => ?_, fun m₁ m₁' hm₁ hm₁' => ?_⟩
  · have hsettles : (Changes.ofParts ns part grafts).Settles w.choice :=
      Changes.settles_ofParts fun n hn => hlane.settles hn
    rw [materialize, Changes.edits_settledBy hsettles, Changes.chosen_ofParts, Changes.inserted_ofParts]
    exact hsplice
  · rcases List.mem_append.mp hf with hf | hf
    · exact hbase.sound f (List.mem_append_left _ hf)
    · exact hlane.sound ho f hf
  · have hordered := hbase.ordered
    rw [orderedAll_append, Bool.and_eq_true] at hordered
    rw [orderedAll_append, hordered.1, Bool.true_and, hlane.ordered_iff hl ho, Changes.ofParts,
      List.forall_mem_append]
    simp only [List.mem_flatMap, List.mem_map, forall_exists_index, and_imp, forall_apply_eq_imp_iff₂]
    constructor
    · exact fun hclear => ⟨fun a n hn ha => hclear n hn a ha, fun g hg => hlane.clear hl hlanes' hlisted hg⟩
    · exact fun hclear n hn a ha => hclear.1 a n hn ha
  · rw [solids_append, hpre, List.nil_append]
    obtain ⟨horder, hinside⟩ := inSameOrder_children horder hx hy
    have horder := (hlanes.order hlanes' horder).1
    rw [← hlisted, List.map_map] at horder
    exact hlane.agrees hs ho hends (fun n hn => htakes.of_ofParts hn) horder fun n hn => hinside n (hnodes ▸ hn)
  · cases hx.symm.trans hm₁
    cases hy.symm.trans hm₁'
    have hnone : Outcome [] [] w.base.source [] result [] := ⟨rfl, by simp⟩
    have hblends := blends_of_lanes hs hlanes hlanes' hlane hchain hlisted hlisted₂ hends (by simp) ho hnone
    refine hblends.congr ?_
    rw [solids_append pre, hpre, solids_append _ (graftsAt [] 0 ++ [])]
    exact List.append_nil _

/-- Whatever is chosen, the merged text reads as sound forms. -/
theorem exists_mergesAll {c : Changes} (hbase : w.language.Written w.base fs) (hmod : w.language.Written w.mod gs)
    (hne : w.language = .script → ∀ m, w.base.root.children? = some m → m.nodes ≠ [])
    (hc : diff w.names w.base w.mod = some c) : ∃ out forms, w.MergesAll gs c out forms := by
  have hs := Language.cuts hbase.source
  have ht := Language.cuts hmod.source
  obtain ⟨hkeyed, hcontainer⟩ := hbase.keyed
  obtain ⟨hkeyed', hcontainer'⟩ := hmod.keyed
  refine (diff_induction (Q := fun path x y c => w.Known path x y c ∧
    (path = [] → ∃ out forms, w.MergesAll gs c out forms)) ?_ hkeyed hkeyed' hcontainer hcontainer' hc).2 rfl
  intro path h h' b b' ns ns' index index' parts as hfind hfind' _ _ _ hparts has
  have hparts : List.Forall₂ (ChildPart w.names w.base.source w.mod.source w.Known path ⟨ns', index'⟩) ns
      parts := hparts.imp fun _ _ hpart => hpart.imp fun _ _ _ hknown => hknown.1
  refine ⟨known_of_parts hs ht hfind hfind' hparts has, ?_⟩
  rintro rfl
  have hroot : w.base.root = .container h b ns index := Option.some.inj hfind
  have hroot' : w.mod.root = .container h' b' ns' index' := Option.some.inj hfind'
  have hx : w.base.root.children? = some ⟨ns, index⟩ := by rw [hroot]; rfl
  have hy : w.mod.root.children? = some ⟨ns', index'⟩ := by rw [hroot']; rfl
  exact mergesAll_of_parts hs ht hbase hmod hx hy (fun hl => hne hl _ hx) hparts (by rwa [hroot, hroot'])

end Root

end Settlement

end ModWeave
