import ModWeave.Proofs.Merge.Standing

/-! Lanes woven: children of a base are turned into what becomes of them, and what only the mod has is
grafted in behind them. -/
namespace ModWeave

/-- Text that only the mod has, and what it reads as. -/
structure Graft where
  addition : Addition
  forms : List Form

/-- What is grafted in at an offset. -/
def graftsAt (gs : List Graft) (k : Nat) : List Form :=
  (gs.filter (·.addition.offset == k)).flatMap Graft.forms

def Graft.edits (gs : List Graft) : List Edit := gs.map (·.addition.edit)

/-- Edits of conflicts, of additions further down, and of grafts of this container turn a region into
what reads as `ls`. Only the grafts may belong to other regions too. -/
structure Woven (l : Language) (s : Source) (lo hi : Nat) (gs : List Graft) (chosen nested : List Edit)
    (ls : List Lexeme) : Prop where
  behind : ∀ e ∈ chosen ++ nested, lo < e.stop
  renders : Renders l s lo hi (chosen ++ (nested ++
    Graft.edits (gs.filter fun g => lo < g.addition.offset && g.addition.offset ≤ hi))) ls

variable {l : Language} {s : Source} {lo mid hi i j : Nat} {gs : List Graft}
  {chosen nested chosen' nested' : List Edit} {ls ms : List Lexeme}

private theorem filter_all {es : List Edit} (h : ∀ e ∈ es, e.stop ≤ mid) :
    es.filter (·.stop ≤ mid) = es ∧ es.filter (!·.stop ≤ mid) = [] :=
  ⟨List.filter_eq_self.mpr (by simpa using h), List.filter_eq_nil_iff.mpr (by simpa using h)⟩

private theorem filter_none {es : List Edit} (h : ∀ e ∈ es, mid < e.stop) :
    es.filter (·.stop ≤ mid) = [] ∧ es.filter (!·.stop ≤ mid) = es :=
  ⟨List.filter_eq_nil_iff.mpr (by simpa using h), List.filter_eq_self.mpr (by simpa using h)⟩

private theorem filter_edits {p : Nat → Bool} (gs : List Graft) :
    (Graft.edits gs).filter (p ·.stop) = Graft.edits (gs.filter (p ·.addition.offset)) := by
  rw [Graft.edits, List.filter_map]
  rfl

theorem Woven.append (h : Woven l s lo mid gs chosen nested ls)
    (k : Woven l s mid hi gs chosen' nested' ms) (hlo : lo ≤ mid) (hhi : mid ≤ hi) :
    Woven l s lo hi gs (chosen ++ chosen') (nested ++ nested') (ls ++ ms) := by
  have hinside := h.renders.inside
  simp only [List.mem_append] at hinside
  have hb := h.behind
  have hb' := k.behind
  simp only [List.forall_mem_append] at hb hb'
  refine ⟨?_, ?_⟩
  · intro e he
    simp only [List.mem_append] at he
    rcases he with (he | he) | he | he
    · exact hb.1 e he
    · exact Nat.lt_of_le_of_lt hlo (hb'.1 e he)
    · exact hb.2 e he
    · exact Nat.lt_of_le_of_lt hlo (hb'.2 e he)
  · obtain ⟨hchosen, hchosen₀⟩ := filter_all fun e he => (hinside e (.inl he)).2.2
    obtain ⟨hnested, hnested₀⟩ := filter_all fun e he => (hinside e (.inr (.inl he))).2.2
    obtain ⟨hchosen'₀, hchosen'⟩ := filter_none hb'.1
    obtain ⟨hnested'₀, hnested'⟩ := filter_none hb'.2
    have happend := @Renders.append l s lo mid hi (chosen ++ chosen' ++ (nested ++ nested' ++
      Graft.edits (gs.filter fun g => lo < g.addition.offset && g.addition.offset ≤ hi))) ls ms
    refine happend ?_ ?_ hlo hhi
    · have hgrafts : (gs.filter fun g => lo < g.addition.offset && g.addition.offset ≤ hi).filter
          (·.addition.offset ≤ mid) =
          gs.filter fun g => lo < g.addition.offset && g.addition.offset ≤ mid := by
        rw [List.filter_filter]
        refine List.filter_congr fun g _ => ?_
        simp only [← Bool.decide_and, decide_eq_decide]
        omega
      simp only [List.filter_append, hchosen, hchosen'₀, hnested, hnested'₀, List.append_nil]
      rw [filter_edits (p := fun k => decide (k ≤ mid)), hgrafts]
      exact h.renders
    · have hgrafts : (gs.filter fun g => lo < g.addition.offset && g.addition.offset ≤ hi).filter
          (!·.addition.offset ≤ mid) =
          gs.filter fun g => mid < g.addition.offset && g.addition.offset ≤ hi := by
        rw [List.filter_filter]
        refine List.filter_congr fun g _ => ?_
        simp only [← Bool.decide_and, ← decide_not, decide_eq_decide]
        omega
      simp only [List.filter_append, hchosen₀, hchosen', hnested₀, hnested', List.nil_append]
      rw [filter_edits (p := fun k => !decide (k ≤ mid)), hgrafts]
      exact k.renders

/-- A region that no graft belongs to. -/
theorem Woven.of_renders (h : Renders l s lo hi (chosen ++ nested) ls)
    (hb : ∀ e ∈ chosen ++ nested, lo < e.stop)
    (hgs : ∀ g ∈ gs, g.addition.offset ≤ lo ∨ hi < g.addition.offset) :
    Woven l s lo hi gs chosen nested ls := by
  refine ⟨hb, ?_⟩
  have hnone : (gs.filter fun g => lo < g.addition.offset && g.addition.offset ≤ hi) = [] := by
    refine List.filter_eq_nil_iff.mpr fun g hg => ?_
    have := hgs g hg
    simp only [Bool.and_eq_true, decide_eq_true_eq]
    omega
  rw [hnone]
  simpa [Graft.edits] using h

/-- The texts of grafts read as their forms. -/
def Graft.AllRead (l : Language) (gs : List Graft) : Prop :=
  ∀ g ∈ gs, l.Reads g.addition.text (lexemesAll g.forms)

/-- What is grafted in at the end of a region follows what the region is turned into. -/
theorem Woven.graft (h : Renders l s lo hi (chosen ++ nested) ls)
    (hb : ∀ e ∈ chosen ++ nested, lo < e.stop) (hboundary : s.Boundary hi) (hlt : lo < hi)
    (hgs : ∀ g ∈ gs, g.addition.offset ≤ lo ∨ hi ≤ g.addition.offset) (hread : Graft.AllRead l gs) :
    Woven l s lo hi gs chosen nested (ls ++ lexemesAll (graftsAt gs hi)) := by
  refine ⟨hb, ?_⟩
  have hfilter : (gs.filter fun g => lo < g.addition.offset && g.addition.offset ≤ hi) =
      gs.filter (·.addition.offset == hi) := by
    refine List.filter_congr fun g hg => ?_
    have := hgs g hg
    rw [Bool.eq_iff_iff]
    simp only [Bool.and_eq_true, decide_eq_true_eq, beq_iff_eq]
    omega
  rw [hfilter, ← List.append_assoc, graftsAt, List.flatMap_def]
  refine h.insert hboundary (Nat.le_of_lt hlt) ?_
  rw [Graft.edits, List.forall₂_map_left_iff, List.forall₂_map_right_iff, List.forall₂_same]
  intro g hg
  obtain ⟨hg, hoffset⟩ := List.mem_filter.mp hg
  rw [beq_iff_eq] at hoffset
  exact ⟨hoffset, hoffset, hread g hg⟩

/-- What stands in front of the first construct stays, and what goes there follows. -/
theorem Woven.front (h : Woven l s lo hi gs chosen nested ls) (hcut : s.Cut l lo i) (hle : lo ≤ hi)
    (hgs : ∀ g ∈ gs, lo ≤ g.addition.offset ∧ g.addition.offset ≤ hi) (hread : Graft.AllRead l gs) :
    Renders l s 0 hi (chosen ++ (nested ++ Graft.edits gs))
      (s.lexemes.take i ++ lexemesAll (graftsAt gs lo) ++ ls) := by
  have hb := h.behind
  simp only [List.forall_mem_append] at hb
  obtain ⟨hchosen, hchosen'⟩ := filter_none hb.1
  obtain ⟨hnested, hnested'⟩ := filter_none hb.2
  refine Renders.append ?_ ?_ (Nat.zero_le lo) hle
  · have hkeep := Renders.keep .zero hcut (Nat.zero_le lo) (Nat.zero_le i)
    rw [List.drop_zero] at hkeep
    have hfilter : (gs.filter fun g => decide (g.addition.offset ≤ lo)) =
        gs.filter (·.addition.offset == lo) := by
      refine List.filter_congr fun g hg => ?_
      have := hgs g hg
      rw [Bool.eq_iff_iff]
      simp only [decide_eq_true_eq, beq_iff_eq]
      omega
    rw [List.filter_append, List.filter_append, hchosen, hnested, List.nil_append, List.nil_append,
      filter_edits (p := fun k => decide (k ≤ lo)), hfilter, graftsAt, List.flatMap_def, ← List.nil_append (Graft.edits _)]
    refine hkeep.insert hcut.boundary (Nat.zero_le lo) ?_
    rw [Graft.edits, List.forall₂_map_left_iff, List.forall₂_map_right_iff, List.forall₂_same]
    intro g hg
    obtain ⟨hg, hoffset⟩ := List.mem_filter.mp hg
    rw [beq_iff_eq] at hoffset
    exact ⟨hoffset, hoffset, hread g hg⟩
  · have hfilter : (gs.filter fun g => !decide (g.addition.offset ≤ lo)) =
        gs.filter fun g => lo < g.addition.offset && g.addition.offset ≤ hi := by
      refine List.filter_congr fun g hg => ?_
      have := hgs g hg
      simp only [← Bool.decide_and, ← decide_not, decide_eq_decide]
      omega
    rw [List.filter_append, List.filter_append, hchosen', hnested',
      filter_edits (p := fun k => !decide (k ≤ lo)), hfilter]
    exact h.renders

/-- A region that starts in front of a construct is turned as the construct is. -/
theorem Renders.widen (h : Renders l s (s.startAt i) hi chosen ls)
    (hb : ∀ e ∈ chosen, s.startAt i < e.stop) (hcut : s.Cut l lo i) (hstart : s.Cut l (s.startAt i) i)
    (hlo : lo ≤ s.startAt i) (hhi : s.startAt i ≤ hi) : Renders l s lo hi chosen ls := by
  obtain ⟨hnone, hall⟩ := filter_none hb
  have hkeep := Renders.keep hcut hstart hlo (Nat.le_refl i)
  have hnil : (s.lexemes.take i).drop i = [] := by simp
  rw [hnil] at hkeep
  refine @Renders.append l s lo (s.startAt i) hi chosen [] ls ?_ ?_ hlo hhi
  · rw [hnone]
    exact hkeep
  · rw [hall]
    exact h

/-- What becomes of a child: it is turned into solid forms by edits that end inside of it. -/
structure Turned (l : Language) (s : Source) (n : Node) (chosen nested : List Edit) (fs : List Form) :
    Prop where
  renders : Renders l s (n.span s).1 (n.span s).2 (chosen ++ nested) (lexemesAll fs)
  behind : ∀ e ∈ chosen ++ nested, (n.span s).1 < e.stop
  solid : ∀ f ∈ fs, f.isSolid = true

/-- What a lane is woven to. -/
structure Outcome (fs : List Form) (ns : List Node) (s : Source) (gs : List Graft)
    (result : Node → List Form) (woven : List Form) : Prop where
  solids : solids woven =
    ns.flatMap fun n => result n ++ ModWeave.solids (graftsAt gs (n.span s).2)
  mem : ∀ f ∈ woven, (f ∈ fs ∧ f.isSolid = false) ∨
    ∃ n ∈ ns, f ∈ result n ∨ f ∈ graftsAt gs (n.span s).2

section Weave

variable {fs woven : List Form} {f : Form} {n : Node} {ns : List Node} {x : Lexeme}
  {chosen nested : Node → List Edit} {result : Node → List Form}

private theorem weave_stray (hs : s.Cuts l) (h : StandingAll l s i (.stray x :: fs) ns)
    (hcut : s.Cut l lo i) (hlo : lo ≤ s.startAt i)
    (hgs : ∀ g ∈ gs, g.addition.offset ≤ lo ∨ s.endAt (i + 1) < g.addition.offset) :
    Woven l s lo (s.endAt (i + 1)) gs [] [] [x] ∧ lo ≤ s.endAt (i + 1) := by
  have hx : s.Spells i [x] := h.spells.left
  have hlt := hs.laidOut.startAt_lt_endAt (hx.stop_le Nat.one_pos)
  have hkeep := Renders.keep hcut (hs.endAt _ h.stray.2) (by omega) (Nat.le_succ i)
  rw [show i + 1 = i + [x].length from rfl, hx.between] at hkeep
  exact ⟨.of_renders hkeep (by simp) hgs, by omega⟩

private theorem weave_solid (hs : s.Cuts l) (hn : Standing l s i f n) (hcut : s.Cut l lo i)
    (hlo : lo ≤ s.startAt i) (hturned : Turned l s n (chosen n) (nested n) (result n))
    (hread : Graft.AllRead l gs)
    (hgs : ∀ g ∈ gs, g.addition.offset ≤ lo ∨ (n.span s).2 ≤ g.addition.offset) :
    Woven l s lo (n.span s).2 gs (chosen n) (nested n)
      (lexemesAll (result n ++ graftsAt gs (n.span s).2)) ∧ lo ≤ (n.span s).2 := by
  have hpos := f.length_pos
  have hle := hn.stop_le
  have hlt := hs.laidOut.startAt_lt_endAt_of_lt (j := i + f.lexemes.length) (by omega)
    (show i < s.tokens.length by omega)
  obtain ⟨hrenders, hbehind, -⟩ := hturned
  rw [hn.span] at hrenders hbehind hgs ⊢
  have hstart := hs.startAt i hn.closed (.inl (by omega))
  have hwide := hrenders.widen hbehind hcut hstart hlo (Nat.le_of_lt hlt)
  rw [lexemesAll_append]
  refine ⟨.graft hwide ?_ (hs.endAt _ hn.closed_stop).boundary (by omega) hgs hread, by omega⟩
  exact fun e he => Nat.lt_of_le_of_lt hlo (hbehind e he)

private theorem Outcome.stray (h : Outcome fs ns s gs result woven) :
    Outcome (.stray x :: fs) ns s gs result (.stray x :: woven) := by
  refine ⟨h.solids, fun f hf => ?_⟩
  rcases List.mem_cons.mp hf with rfl | hf
  · exact .inl ⟨List.mem_cons_self, rfl⟩
  · exact (h.mem f hf).imp_left fun hf => ⟨List.mem_cons_of_mem _ hf.1, hf.2⟩

private theorem Outcome.solid (h : Outcome fs ns s gs result woven)
    (hresult : ∀ f ∈ result n, f.isSolid = true) :
    Outcome (f :: fs) (n :: ns) s gs result
      (result n ++ graftsAt gs (n.span s).2 ++ woven) := by
  refine ⟨?_, fun f' hf' => ?_⟩
  · rw [ModWeave.solids, List.filter_append, List.filter_append, List.filter_eq_self.mpr hresult,
      List.flatMap_cons, ← h.solids]
  · simp only [List.mem_append] at hf'
    rcases hf' with hf' | hf'
    · exact .inr ⟨n, List.mem_cons_self, hf'⟩
    · rcases h.mem f' hf' with hf' | ⟨m, hm, hf'⟩
      · exact .inl ⟨List.mem_cons_of_mem _ hf'.1, hf'.2⟩
      · exact .inr ⟨m, List.mem_cons_of_mem _ hm, hf'⟩

/-- Children next to each other are woven one by one. -/
theorem StandingAll.weave (hs : s.Cuts l) (h : StandingAll l s i fs ns) (hcut : s.Cut l lo i)
    (hlo : lo ≤ s.startAt i) (hnil : fs = [] → lo = s.endAt i)
    (hturned : ∀ n ∈ ns, Turned l s n (chosen n) (nested n) (result n)) (hread : Graft.AllRead l gs)
    (hgs : ∀ g ∈ gs, g.addition.offset ≤ lo ∨ (∃ n ∈ ns, g.addition.offset = (n.span s).2) ∨
      s.endAt (i + (lexemesAll fs).length) < g.addition.offset) :
    ∃ woven, Woven l s lo (s.endAt (i + (lexemesAll fs).length)) gs (ns.flatMap chosen)
      (ns.flatMap nested) (lexemesAll woven) ∧ Outcome fs ns s gs result woven := by
  induction fs generalizing i ns lo with
  | nil =>
    obtain rfl := h.eq_nil
    obtain rfl := hnil rfl
    refine ⟨[], ?_, ⟨rfl, by simp⟩⟩
    have hkeep := Renders.keep hcut hcut (Nat.le_refl _) (Nat.le_refl i)
    have hempty : (s.lexemes.take i).drop i = [] := by simp
    rw [hempty] at hkeep
    refine .of_renders hkeep (by simp) fun g hg => ?_
    rcases hgs g hg with hle | ⟨n, hn, -⟩ | hlt
    · exact .inl hle
    · cases hn
    · exact .inr hlt
  | cons f fs ih =>
    cases hf : f.isSolid with
    | true =>
      obtain ⟨n, ns, rfl, hn, hns⟩ := h.uncons hf
      have hstop : (n.span s).2 = s.endAt (i + f.lexemes.length) := by rw [hn.span]
      rw [lexemesAll_cons, List.length_append, ← Nat.add_assoc] at hgs ⊢
      have hmono := hs.laidOut.endAt_mono (Nat.le_add_right (i + f.lexemes.length)
        (lexemesAll fs).length)
      rw [List.forall_mem_cons] at hturned
      obtain ⟨hfirst, hlofirst⟩ := weave_solid hs hn hcut hlo hturned.1 hread fun g hg => by
        rcases hgs g hg with hle | ⟨m, hm, heq⟩ | hlt
        · exact .inl hle
        · rcases List.mem_cons.mp hm with rfl | hm
          · exact .inr (Nat.le_of_eq heq.symm)
          · have := hns.bytes hs hm
            exact .inr (by omega)
        · exact .inr (by omega)
      obtain ⟨woven, hwoven, houtcome⟩ := ih hns
        (hs.endAt _ hn.closed_stop) (hs.laidOut.endAt_le_startAt _) (fun _ => rfl) hturned.2
        fun g hg => by
          rcases hgs g hg with hle | ⟨m, hm, heq⟩ | hlt
          · exact .inl (by omega)
          · rcases List.mem_cons.mp hm with rfl | hm
            · exact .inl (by omega)
            · exact .inr (.inl ⟨m, hm, heq⟩)
          · exact .inr (.inr hlt)
      refine ⟨_, ?_, houtcome.solid hturned.1.solid⟩
      rw [List.flatMap_cons, List.flatMap_cons, lexemesAll_append]
      rw [← hstop] at hwoven hmono
      exact hfirst.append hwoven hlofirst hmono
    | false =>
      cases f with
      | leaf | block => cases hf
      | stray x =>
        have hrest := h.stray.1
        have hlen : i + (lexemesAll (.stray x :: fs)).length = i + 1 + (lexemesAll fs).length := by
          rw [lexemesAll_cons, Form.lexemes, List.length_append, List.length_singleton, Nat.add_assoc]
        rw [hlen] at hgs ⊢
        have hmono := hs.laidOut.endAt_mono (Nat.le_add_right (i + 1) (lexemesAll fs).length)
        obtain ⟨hfirst, hlofirst⟩ := weave_stray hs h hcut hlo fun g hg => by
          rcases hgs g hg with hle | ⟨m, hm, heq⟩ | hlt
          · exact .inl hle
          · have := hrest.bytes hs hm
            exact .inr (by omega)
          · exact .inr (by omega)
        obtain ⟨woven, hwoven, houtcome⟩ := ih hrest
          (hs.endAt _ h.stray.2) (hs.laidOut.endAt_le_startAt _) (fun _ => rfl) hturned
          fun g hg => (hgs g hg).imp_left fun hle => by omega
        exact ⟨.stray x :: woven, hfirst.append hwoven hlofirst hmono, houtcome.stray⟩

end Weave

end ModWeave
