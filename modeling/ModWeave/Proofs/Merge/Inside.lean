import ModWeave.Proofs.Merge.Block
import ModWeave.Proofs.Merge.Provenance

/-! What a block becomes when it is looked into: the mod's changes of its children are made in it, and
nothing else. -/
namespace ModWeave

namespace Changes

/-- The changes of a container: those of its children, and what only the mod has among them. -/
def ofParts (nodes : List Node) (part : Node → Changes) (gs : List Graft) : Changes :=
  ⟨nodes.flatMap fun n => (part n).conflicts,
    (nodes.flatMap fun n => (part n).additions) ++ gs.map Graft.addition⟩

variable {nodes : List Node} {part : Node → Changes} {gs : List Graft} {choice : Conflict → Choice}

theorem chosen_ofParts : (ofParts nodes part gs).chosen choice = nodes.flatMap fun n => (part n).chosen choice := by
  simp only [chosen, ofParts, List.flatMap_assoc]

theorem inserted_ofParts : (ofParts nodes part gs).inserted =
    (nodes.flatMap fun n => (part n).inserted) ++ Graft.edits gs := by
  simp only [inserted, ofParts, List.map_append, List.map_flatMap, List.map_map]
  rfl

theorem settles_ofParts (h : ∀ n ∈ nodes, (part n).Settles choice) : (ofParts nodes part gs).Settles choice := by
  intro r hr
  obtain ⟨n, hn, hr⟩ := List.mem_flatMap.mp hr
  exact h n hn r hr

theorem TakesMod.of_ofParts (h : (ofParts nodes part gs).TakesMod choice) {n : Node} (hn : n ∈ nodes) :
    (part n).TakesMod choice :=
  fun r hr => h r (List.mem_flatMap.mpr ⟨n, hn, hr⟩)

end Changes

section Merge

variable {w : Settlement} {path : List String} {i j k k' : Nat} {label label' : Label} {header : List Lexeme}
  {opening opening' closing closing' : Lexeme} {body body' clauses clauses' woven woven₂ : List Form}
  {trail trail' : List Lexeme} {x y : Node} {m m' : ChildMap Node} {ns ns' cs cs' : List Node}
  {rows rows₂ : Rows} {part : Node → Changes} {result : Node → List Form} {gs gs₂ : List Graft}

/-- A block of the base and one of the mod, of the same header, with both lanes merged. -/
structure BlockMerge (w : Settlement) (path : List String) (i j k k' : Nat) (label label' : Label)
    (header : List Lexeme) (opening opening' : Lexeme) (body body' : List Form) (closing closing' : Lexeme)
    (clauses clauses' : List Form) (trail trail' : List Lexeme) (x y : Node) (m m' : ChildMap Node)
    (ns ns' cs cs' : List Node) (rows rows₂ : Rows) (part : Node → Changes) (result : Node → List Form)
    (gs gs₂ : List Graft) : Prop where
  cuts : w.base.source.Cuts w.language
  ordered : (Form.block label header opening body closing clauses trail).ordered = true
  ordered' : (Form.block label' header opening' body' closing' clauses' trail').ordered = true
  base : BlockAt w.language w.base.source i k label header opening body closing clauses trail x m ns cs
  mod : BlockAt w.language w.mod.source j k' label' header opening' body' closing' clauses' trail' y m' ns' cs'
  listed : rows.map Prod.fst = ns'
  listed₂ : rows₂.map Prod.fst = cs'
  lane : LaneMerge w path m m' false (i + header.length + 1) (w.base.source.endAt (i + header.length + 1))
    body body' ns rows (rows ++ rows₂) part result gs
  chain : LaneMerge w path m m' true k (w.base.source.endAt k) clauses clauses' cs rows₂ (rows ++ rows₂)
    part result gs₂

namespace BlockMerge

variable (h : BlockMerge w path i j k k' label label' header opening opening' body body' closing closing'
  clauses clauses' trail trail' x y m m' ns ns' cs cs' rows rows₂ part result gs gs₂)

include h

/-- In a document nothing is grafted in among clauses. -/
private theorem no_clauses (hl : w.language = .markup) : clauses = [] ∧ cs = [] ∧ gs₂ = [] := by
  obtain rfl := h.base.markup hl
  obtain rfl := h.mod.markup hl
  exact ⟨rfl, h.base.lanes.chain.eq_nil, h.chain.no_grafts⟩

/-- The grafts of the clauses lie behind the closing token, those of the statements in front of it. -/
private theorem apart : (∀ g ∈ gs, w.base.source.endAt (i + header.length + 1) ≤ g.addition.offset ∧
      g.addition.offset ≤ w.base.source.endAt (i + header.length + 1 + (lexemesAll body).length)) ∧
    ∀ g ∈ gs₂, w.base.source.endAt (i + header.length + 1 + (lexemesAll body).length) < g.addition.offset ∧
      w.base.source.endAt k ≤ g.addition.offset ∧ g.addition.offset ≤ (x.span w.base.source).2 := by
  refine ⟨fun g hg => h.lane.range h.cuts hg, fun g hg => ?_⟩
  have hrange := h.chain.range h.cuts hg
  cases hl : w.language with
  | markup =>
    rw [(h.no_clauses hl).2.2] at hg
    cases hg
  | script =>
    have hlt := h.base.closing_lt hl h.cuts
    have hstop := h.base.stop_eq hl
    omega

private theorem graftsAt_lane {k : Nat}
    (hk : k ≤ w.base.source.endAt (i + header.length + 1 + (lexemesAll body).length)) :
    graftsAt (gs ++ gs₂) k = graftsAt gs k := by
  have hnone : graftsAt gs₂ k = [] := graftsAt_eq_nil fun g hg heq => by
    have := (h.apart.2 g hg).1
    omega
  rw [graftsAt_append, hnone, List.append_nil]

private theorem graftsAt_chain {k : Nat}
    (hk : w.base.source.endAt (i + header.length + 1 + (lexemesAll body).length) < k) :
    graftsAt (gs ++ gs₂) k = graftsAt gs₂ k := by
  have hnone : graftsAt gs k = [] := graftsAt_eq_nil fun g hg heq => by
    have := (h.apart.1 g hg).2
    omega
  rw [graftsAt_append, hnone, List.nil_append]

private theorem reads : Graft.AllRead w.language (gs ++ gs₂) :=
  List.forall_mem_append.mpr ⟨h.lane.reads, h.chain.reads⟩

/-- The body is woven. -/
private theorem weave_body : ∃ woven, Woven w.language w.base.source
      (w.base.source.endAt (i + header.length + 1))
      (w.base.source.endAt (i + header.length + 1 + (lexemesAll body).length)) (gs ++ gs₂)
      (ns.flatMap fun n => (part n).chosen w.choice) (ns.flatMap fun n => (part n).inserted)
      (lexemesAll woven) ∧ Outcome body ns w.base.source gs result woven := by
  refine h.lane.weave h.cuts (h.cuts.endAt _ h.base.lanes.statements.closed)
    (h.cuts.laidOut.endAt_le_startAt _) (fun _ => rfl) h.reads (fun g hg => ?_) fun n hn => ?_
  · rcases List.mem_append.mp hg with hg | hg
    · exact .inl hg
    · exact .inr (.inr (h.apart.2 g hg).1)
  · exact h.graftsAt_lane (h.base.lanes.statements.bytes h.cuts hn).2.2

/-- What stands from the closing token on is woven. -/
private theorem weave_rest : ∃ woven₂, Woven w.language w.base.source
      (w.base.source.endAt (i + header.length + 1 + (lexemesAll body).length)) (x.span w.base.source).2
      (gs ++ gs₂) (cs.flatMap fun n => (part n).chosen w.choice) (cs.flatMap fun n => (part n).inserted)
      (closing :: (lexemesAll (graftsAt gs₂ (w.base.source.endAt k) ++ woven₂) ++ trail)) ∧
    Outcome clauses cs w.base.source gs₂ result woven₂ := by
  cases hl : w.language with
  | markup =>
    obtain ⟨rfl, rfl, rfl⟩ := h.no_clauses hl
    refine ⟨[], ?_, ⟨rfl, by simp⟩⟩
    have htrail := h.base.weave_trail (gs ++ []) hl h.cuts fun g hg => by
      rw [List.append_nil] at hg
      exact (h.apart.1 g hg).2
    rw [← hl]
    exact htrail
  | script =>
    have hlt := h.base.closing_lt hl h.cuts
    have hclosing := h.base.weave_closing (gs ++ gs₂) hl h.cuts h.reads fun g hg => by
      rcases List.mem_append.mp hg with hg | hg
      · exact .inl (h.apart.1 g hg).2
      · exact .inr (h.apart.2 g hg).2.1
    obtain ⟨woven₂, hwoven, houtcome⟩ := h.chain.weave h.cuts (h.cuts.endAt _ h.base.lanes.chain.closed)
      (h.cuts.laidOut.endAt_le_startAt _) (fun _ => rfl) h.reads (fun g hg => by
        rcases List.mem_append.mp hg with hg | hg
        · have := (h.apart.1 g hg).2
          exact .inr (.inl (by omega))
        · exact .inl hg) (fun n hn => h.graftsAt_chain (by
        have := h.base.lanes.chain.bytes h.cuts hn
        omega))
    refine ⟨woven₂, ?_, houtcome⟩
    rw [h.graftsAt_chain hlt] at hclosing
    have hall := hclosing.append hwoven (Nat.le_of_lt hlt) (h.cuts.laidOut.endAt_mono (Nat.le_add_right _ _))
    rw [← h.base.stop_eq hl, (h.base.script hl).1] at *
    rw [← hl]
    simpa using hall

/-- The block is turned into one that has both lanes woven. -/
theorem turned : ∃ woven woven₂, Outcome body ns w.base.source gs result woven ∧
    Outcome clauses cs w.base.source gs₂ result woven₂ ∧
    Turned w.language w.base.source x ((Changes.ofParts m.nodes part (gs ++ gs₂)).chosen w.choice)
      (Changes.ofParts m.nodes part (gs ++ gs₂)).inserted
      [.block label header opening (graftsAt gs (w.base.source.endAt (i + header.length + 1)) ++ woven) closing
        (graftsAt gs₂ (w.base.source.endAt k) ++ woven₂) trail] := by
  obtain ⟨woven, hbody, ho⟩ := h.weave_body
  obtain ⟨woven₂, hrest, ho₂⟩ := h.weave_rest
  refine ⟨woven, woven₂, ho, ho₂, ?_⟩
  have hmono := h.cuts.laidOut.endAt_mono (Nat.le_add_right (i + header.length + 1) (lexemesAll body).length)
  have hle := h.base.body_le h.cuts
  have hrange : ∀ g ∈ gs ++ gs₂, w.base.source.endAt (i + header.length + 1) ≤ g.addition.offset ∧
      g.addition.offset ≤ (x.span w.base.source).2 := by
    intro g hg
    rcases List.mem_append.mp hg with hg | hg
    · have := h.apart.1 g hg
      omega
    · have := h.apart.2 g hg
      omega
  obtain ⟨hlt, hopening⟩ := h.base.weave_opening h.cuts h.reads fun g hg => (hrange g hg).1
  rw [h.graftsAt_lane hmono] at hopening
  have hall := hopening.append (hbody.append hrest hmono hle) (Nat.le_of_lt hlt)
    (Nat.le_trans hmono hle)
  have hchosen : (Changes.ofParts m.nodes part (gs ++ gs₂)).chosen w.choice =
      (ns.flatMap fun n => (part n).chosen w.choice) ++ cs.flatMap fun n => (part n).chosen w.choice := by
    rw [Changes.chosen_ofParts, h.base.lanes.nodes, List.flatMap_append]
  have hinserted : (Changes.ofParts m.nodes part (gs ++ gs₂)).inserted =
      (ns.flatMap fun n => (part n).inserted) ++ (cs.flatMap fun n => (part n).inserted) ++
        Graft.edits (gs ++ gs₂) := by
    rw [Changes.inserted_ofParts, h.base.lanes.nodes, List.flatMap_append]
  have hfilter : (gs ++ gs₂).filter (fun g => (x.span w.base.source).1 < g.addition.offset &&
      g.addition.offset ≤ (x.span w.base.source).2) = gs ++ gs₂ := by
    refine List.filter_eq_self.mpr fun g hg => ?_
    have := hrange g hg
    simp only [Bool.and_eq_true, decide_eq_true_eq]
    omega
  obtain ⟨hbehind, hrenders⟩ := hall
  rw [hfilter] at hrenders
  refine ⟨?_, ?_, by simp [Form.isSolid, Form.label?]⟩
  · rw [hchosen, hinserted]
    simpa [Form.lexemes] using hrenders
  · rw [hchosen, hinserted]
    intro e he
    simp only [List.nil_append, List.mem_append] at he hbehind
    rcases he with he | he | he
    · exact hbehind e (.inl he)
    · exact hbehind e (.inr he)
    · obtain ⟨g, hg, rfl⟩ := List.mem_map.mp he
      exact Nat.lt_of_lt_of_le hlt (hrange g hg).1

private theorem label_eq : label = label' :=
  h.base.standing.sound.block_label h.mod.standing.sound

/-- The block stays sound. -/
theorem sound (ho : Outcome body ns w.base.source gs result woven)
    (ho₂ : Outcome clauses cs w.base.source gs₂ result woven₂) :
    w.language.Sound (.block label header opening
      (graftsAt gs (w.base.source.endAt (i + header.length + 1)) ++ woven) closing
      (graftsAt gs₂ (w.base.source.endAt k) ++ woven₂) trail) := by
  refine h.base.standing.sound.refill (h.lane.sound ho) (h.chain.sound ho₂) (fun hl => ?_) fun hne => ?_
  · refine h.lane.filled ho ?_
    rintro rfl
    exact h.mod.standing.sound.filled hl h.lane.mod.forms.symm
  · obtain ⟨f, hf⟩ := List.exists_mem_of_ne_nil _ hne
    rcases h.chain.origin ho₂ hf with hclauses | hclauses
    · exact h.base.standing.sound.conditional hclauses
    · rw [h.label_eq]
      exact h.mod.standing.sound.conditional hclauses

/-- Where clauses of the base stand against an `else` that is added, as the children tell. -/
private theorem clear_iff (hfind : w.base.find? path = some x) (hfind' : w.mod.find? path = some y)
    {g : Graft} (hg : g ∈ gs₂) : w.Clear g.addition ↔ (g.addition.signature = "else" →
      ∀ n ∈ cs, g.addition.offset ≤ (n.span w.base.source).1 → result n = []) := by
  obtain ⟨z, -, hgraft, -⟩ := h.chain.place hg
  have hnodes := h.base.lanes.nodes
  have hmod (sig : String) : w.mod.find? (path ++ [sig]) = m'.get? sig :=
    Tree.find?_concat hfind' h.mod.children sig
  have hgone (n : Node) (hn : n ∈ cs) : result n = [] ↔ w.mod.find? (path ++ [n.signature]) = none ∧
      (w.choice (w.removal path n)).takesMod = true := by
    obtain ⟨k, f, -, -, hfate⟩ := h.chain.fates n hn
    rw [hfate.gone, hmod]
  rw [Settlement.Clear, hgraft.parent]
  constructor
  · intro hclear hsig n hn hle
    exact (hgone n hn).mpr (hclear hsig x m hfind h.base.children n (hnodes ▸ List.mem_append_right _ hn)
      (h.base.lanes.clause hn) hle)
  · intro hall hsig x' children hx' hchildren n hn hclause hle
    rw [hfind] at hx'
    cases hx'
    rw [h.base.children] at hchildren
    cases hchildren
    have hn := h.base.lanes.mem_chain hn hclause
    exact (hgone n hn).mp (hall hsig n hn hle)

/-- The clauses of a script's block with the `else` last on both sides. -/
private theorem chainMerge (hl : w.language = .script) : ChainMerge w path m m' k (w.base.source.endAt k)
    clauses clauses' cs rows₂ (rows ++ rows₂) part result gs₂ := by
  have hordered := h.ordered
  have hordered' := h.ordered'
  rw [Form.ordered, Bool.and_eq_true] at hordered hordered'
  have hlanes : Lanes .script w.base.source _ k body clauses m ns cs := hl ▸ h.base.lanes
  have hlanes' : Lanes .script w.mod.source _ k' body' clauses' m' ns' cs' := hl ▸ h.mod.lanes
  refine ⟨h.chain, h.cuts, fun n hn => (h.base.lanes.chain.bytes h.cuts hn).1, hordered.2, hordered'.2,
    fun n hn => ?_, fun q hq => ?_⟩
  · exact (hlanes.told (hlanes.nodes ▸ List.mem_append_right _ hn)).otherwise
  · have hmem : q.1 ∈ cs' := h.listed₂ ▸ List.mem_map_of_mem hq
    obtain ⟨k, hstand⟩ := h.chain.mod.standing q hq
    rw [← hstand.isElse, beq_iff_eq]
    exact (hlanes'.told (hlanes'.nodes ▸ List.mem_append_right _ hmem)).otherwise

/-- The block is in order exactly when everything that is added in it keeps the order. -/
theorem ordered_iff (hl : w.language = .script) (hfind : w.base.find? path = some x)
    (hfind' : w.mod.find? path = some y) (ho : Outcome body ns w.base.source gs result woven)
    (ho₂ : Outcome clauses cs w.base.source gs₂ result woven₂) :
    (Form.block label header opening (graftsAt gs (w.base.source.endAt (i + header.length + 1)) ++ woven) closing
      (graftsAt gs₂ (w.base.source.endAt k) ++ woven₂) trail).ordered = true ↔
      ∀ a ∈ (Changes.ofParts m.nodes part (gs ++ gs₂)).additions, w.Clear a := by
  have hlane : ∀ g ∈ gs, w.Clear g.addition := fun g hg => h.lane.clear hl h.mod.lanes h.listed hg
  rw [Form.ordered, Bool.and_eq_true, Bool.and_eq_true, h.lane.ordered_iff hl ho, h.chain.ordered_iff hl ho₂,
    (h.chainMerge hl).elseLast_iff_gone ho₂, Changes.ofParts, List.forall_mem_append, h.base.lanes.nodes]
  simp only [List.mem_flatMap, forall_exists_index, and_imp, List.mem_append, List.mem_map]
  constructor
  · rintro ⟨⟨hbody, hclauses⟩, hgone⟩
    refine ⟨?_, ?_⟩
    · rintro a n (hn | hn) ha
      · exact hbody n hn a ha
      · exact hclauses n hn a ha
    · rintro a g (hg | hg) rfl
      · exact hlane g hg
      · exact (h.clear_iff hfind hfind' hg).mpr (hgone g hg)
  · rintro ⟨hparts, hgrafts⟩
    refine ⟨⟨fun n hn a ha => hparts a n (.inl hn) ha, fun n hn a ha => hparts a n (.inr hn) ha⟩, ?_⟩
    exact fun g hg => (h.clear_iff hfind hfind' hg).mp (hgrafts _ g (.inr hg) rfl)

/-- With the mod's side taken everywhere the block becomes the mod's. -/
theorem agrees (ho : Outcome body ns w.base.source gs result woven)
    (ho₂ : Outcome clauses cs w.base.source gs₂ result woven₂)
    (htakes : (Changes.ofParts m.nodes part (gs ++ gs₂)).TakesMod w.choice)
    (horder : inSameOrder w.base.source w.mod.source x y = true) :
    Agrees (.block label header opening (graftsAt gs (w.base.source.endAt (i + header.length + 1)) ++ woven)
      closing (graftsAt gs₂ (w.base.source.endAt k) ++ woven₂) trail)
      (.block label' header opening' body' closing' clauses' trail') := by
  obtain ⟨horder, hinside⟩ := inSameOrder_children horder h.base.children h.mod.children
  obtain ⟨hlane, hchain⟩ := h.base.lanes.order h.mod.lanes horder
  rw [← h.listed, List.map_map] at hlane
  rw [← h.listed₂, List.map_map] at hchain
  have hmem {n : Node} (hn : n ∈ ns) : n ∈ m.nodes := h.base.lanes.nodes ▸ List.mem_append_left _ hn
  have hmem₂ {n : Node} (hn : n ∈ cs) : n ∈ m.nodes := h.base.lanes.nodes ▸ List.mem_append_right _ hn
  have hbody := h.lane.agrees h.cuts ho (fun n hn => by
      have := h.base.lanes.statements.bytes h.cuts hn
      omega) (fun n hn => htakes.of_ofParts (hmem hn)) hlane fun n hn => hinside n (hmem hn)
  have hclauses := h.chain.agrees h.cuts ho₂ (fun n hn => by
      have := h.base.lanes.chain.bytes h.cuts hn
      omega) (fun n hn => htakes.of_ofParts (hmem₂ hn)) hchain fun n hn => hinside n (hmem₂ hn)
  have hsolid : ∀ f ∈ graftsAt gs₂ (w.base.source.endAt k) ++ woven₂, f.isSolid = true :=
    fun f hf => Form.isSolid_of_isClause (h.chain.sound ho₂ f hf).2
  have hsolid' : ∀ f ∈ clauses', f.isSolid = true :=
    fun f hf => Form.isSolid_of_isClause (h.mod.lanes.hung f hf)
  rw [solids, solids, List.filter_eq_self.mpr hsolid, List.filter_eq_self.mpr hsolid'] at hclauses
  have hordered := h.ordered'
  rw [Form.ordered, Bool.and_eq_true] at hordered
  exact .block h.label_eq hbody hclauses (List.forall_mem_append.mpr ⟨hsolid, hsolid'⟩)
    (h.mod.lanes.keyed_eq ▸ h.mod.lanes.indexed.nodup) h.mod.lanes.fresh hordered.2

/-- The block is what the two blocks are blended to. -/
theorem comes (ho : Outcome body ns w.base.source gs result woven)
    (ho₂ : Outcome clauses cs w.base.source gs₂ result woven₂)
    (hdiffer : DifferInside w.base.source w.mod.source x y) {n n' : ChildMap Node} {sig : String}
    (hx : n.get? sig = some x) (hy : n'.get? sig = some y) :
    ComesFrom w.language w.base.source w.mod.source n n' sig (.block label header opening
      (graftsAt gs (w.base.source.endAt (i + header.length + 1)) ++ woven) closing
      (graftsAt gs₂ (w.base.source.endAt k) ++ woven₂) trail) := by
  refine .inside x y hx hy hdiffer h.base.standing h.base.children h.mod.children
    (blends_of_lanes h.cuts h.base.lanes h.mod.lanes h.lane h.chain h.listed h.listed₂ (fun n hn => ?_)
      (fun n hn => ?_) ho ho₂)
  · have := h.base.lanes.statements.bytes h.cuts hn
    omega
  · have := h.base.lanes.chain.bytes h.cuts hn
    omega

theorem settles : (Changes.ofParts m.nodes part (gs ++ gs₂)).Settles w.choice := by
  refine Changes.settles_ofParts fun n hn => ?_
  rw [h.base.lanes.nodes, List.mem_append] at hn
  exact hn.elim h.lane.settles h.chain.settles

end BlockMerge

end Merge

namespace Settlement

variable {w : Settlement} {path : List String} {hd hd' : Head} {b b' : Option Braces} {ns ns' : List Node}
  {index index' : List (String × Nat)} {parts : List Changes} {as : List Addition}

/-- A container that is looked into is merged when the children that are looked into are. -/
theorem known_of_parts (hs : w.base.source.Cuts w.language) (ht : w.mod.source.Cuts w.language)
    (hfind : w.base.find? path = some (.container hd b ns index))
    (hfind' : w.mod.find? path = some (.container hd' b' ns' index'))
    (hparts : List.Forall₂ (ChildPart w.names w.base.source w.mod.source w.Known path ⟨ns', index'⟩) ns parts)
    (has : List.Forall₂ (AdditionOf ⟨w.base.source, w.mod.source, .container hd b ns index,
      .container hd' b' ns' index', ⟨ns, index⟩⟩ path) ((splits [] ns').filter fun z =>
        !(ChildMap.mk ns index).contains z.2.1.signature) as) :
    w.Known path (.container hd b ns index) (.container hd' b' ns' index')
      ⟨parts.flatMap Changes.conflicts, parts.flatMap Changes.additions ++ as⟩ := by
  intro i f j g hf hordered hg hordered' hdiffer
  obtain ⟨k, label, header, opening, body, closing, clauses, trail, ns₁, cs₁, rfl, hbase⟩ := hf.blockAt
  obtain ⟨k', label', header', opening', body', closing', clauses', trail', ns₂, cs₂, rfl, hmod⟩ := hg.blockAt
  obtain rfl := hbase.header_eq hmod hdiffer.header
  have hbody := hordered
  have hbody' := hordered'
  rw [Form.ordered, Bool.and_eq_true, ← orderedAll_append] at hbody hbody'
  have hstart := hbase.laneStart_eq
  have hstart' := hmod.laneStart_eq
  obtain ⟨rows, rows₂, part, result, gs, gs₂, rfl, rfl, hlisted, hlisted₂, hlane, hchain⟩ :=
    exists_laneMerges (w.base.source.endAt (i + header.length + 1)) (w.base.source.endAt k) hs ht
      hbase.lanes hmod.lanes hbody.1 hbody'.1 hparts has
      (fun n hn => by
        have hkind := hmod.lanes.statement hn
        exact .brace (hkind ▸ hstart.1) (hkind ▸ hstart'.1)) fun n hn => by
        cases hl : w.language with
        | script =>
          have hkind := hmod.lanes.clause hn
          exact .brace (hkind ▸ hstart.2 hl) (hkind ▸ hstart'.2 hl)
        | markup =>
          obtain rfl := hmod.markup hl
          rw [hmod.lanes.chain.eq_nil] at hn
          cases hn
  have h : BlockMerge w path i j k k' label label' header opening opening' body body' closing closing'
      clauses clauses' trail trail' _ _ _ _ ns₁ ns₂ cs₁ cs₂ rows rows₂ part result gs gs₂ :=
    ⟨hs, hordered, hordered', hbase, hmod, hlisted, hlisted₂, hlane, hchain⟩
  have hparts : (⟨(ns.map part).flatMap Changes.conflicts, (ns.map part).flatMap Changes.additions ++
      (gs ++ gs₂).map Graft.addition⟩ : Changes) = .ofParts ns part (gs ++ gs₂) := by
    simp only [Changes.ofParts, List.flatMap_map]
  obtain ⟨woven, woven₂, ho, ho₂, hturned⟩ := h.turned
  rw [hparts]
  exact ⟨_, hturned, h.settles, h.sound ho ho₂, rfl, fun hl => h.ordered_iff hl hfind hfind' ho ho₂,
    h.agrees ho ho₂, fun _ _ _ => h.comes ho ho₂ hdiffer⟩

end Settlement

end ModWeave
