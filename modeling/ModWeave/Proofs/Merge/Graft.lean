import ModWeave.Proofs.Merge.Changes
import ModWeave.Proofs.Merge.Children

/-! What is added reads as the child that only the mod has, with strays in front of it or behind it. It
goes behind the last sibling before it that the base has too, or to the start of its lane. -/
namespace ModWeave

theorem Language.reads_newline (l : Language) : l.Reads ['\n'] [] := by
  cases l with
  | script => exact Script.reads_newline
  | markup => exact Markup.reads_newline

/-- The last of some siblings that the base has too, as it stands in the base. -/
def lastKept (children : ChildMap Node) (before : List Node) : Option Node :=
  before.reverse.findSome? fun n => children.get? n.signature

/-- A text reads as one of the forms of a lane, and strays of the lane beside it. -/
structure GraftOf (l : Language) (lane : List Form) (g : Form) (text : List Char) (forms : List Form) :
    Prop where
  reads : l.Reads text (lexemesAll forms)
  solids : solids forms = [g]
  mem : ∀ f ∈ forms, f ∈ lane

section Texts

variable {l : Language} {t : Source} {j lo : Nat} {fs pre post strays : List Form} {g : Form}
  {child previous next : Node} {text : List Char} {ns : List Node}

private theorem spells_middle {u v w : List Form} (h : t.Spells j (lexemesAll (u ++ (v ++ w)))) :
    t.Spells (j + (lexemesAll u).length) (lexemesAll v) := by
  rw [lexemesAll_append, lexemesAll_append] at h
  exact h.right.left

/-- The text from a cut in front of some strays to the end of a child. -/
private theorem graft_of_gap (hs : t.Cuts l) (h : t.Spells j (lexemesAll (strays ++ g :: post)))
    (hg : Standing l t (j + (lexemesAll strays).length) g child) (hstrays : solids strays = [])
    (hclosed : t.Closed l j)
    (hcut : t.textBetween? (t.endAt j) (child.span t).2 = some text) :
    GraftOf l (strays ++ g :: post) g text (strays ++ [g]) := by
  have hspells : t.Spells j (lexemesAll (strays ++ [g])) := by
    have := spells_middle (u := []) (v := strays ++ [g]) (w := post) (by simpa using h)
    simpa using this
  have hlen : j + (lexemesAll (strays ++ [g])).length =
      j + (lexemesAll strays).length + g.lexemes.length := by
    simp [Nat.add_assoc]
  have hend := hs.endAt _ hg.closed_stop
  rw [← hlen] at hend
  obtain ⟨text', htext', hreads⟩ := hspells.reads (hs.endAt j hclosed) hend
    (hs.laidOut.endAt_mono (Nat.le_add_right _ _))
  rw [hg.span, ← hlen, htext'] at hcut
  cases hcut
  refine ⟨hreads, ?_, fun f hf => ?_⟩
  · rw [solids_append, hstrays, solids_cons_of_isSolid hg.isSolid]
    rfl
  · simp only [List.mem_append, List.mem_cons, List.not_mem_nil, or_false] at hf ⊢
    tauto

/-- The text behind a sibling up to the end of a child. -/
private theorem graft_behind (hs : t.Cuts l) {before after : List Node}
    (h : StandingAll l t j fs (before ++ previous :: child :: after))
    (hcut : t.textBetween? (previous.span t).2 (child.span t).2 = some text) :
    ∃ g forms, (solids fs)[before.length + 1]? = some g ∧ GraftOf l fs g text forms := by
  obtain ⟨pre, p, rest, rfl, hpre, hprevious, hrest⟩ := h.split
  obtain ⟨strays, g, post, rfl, hstrays, hg, -⟩ :=
    (show StandingAll l t _ _ ([] ++ child :: after) from hrest).split
  rw [hprevious.span] at hcut
  have hgraft := graft_of_gap hs hrest.spells hg hstrays.strays hrest.closed hcut
  refine ⟨g, _, ?_, hgraft.reads, hgraft.solids, fun f hf => ?_⟩
  · have hsolids : solids (pre ++ p :: (strays ++ g :: post)) = solids pre ++ p :: g :: solids post := by
      rw [solids_append, solids_cons_of_isSolid hprevious.isSolid, solids_append, hstrays.strays,
        List.nil_append, solids_cons_of_isSolid hg.isSolid]
    rw [hsolids, ← hpre.forall₂.length_eq, List.getElem?_append_right (Nat.le_add_right _ 1),
      Nat.add_sub_cancel_left]
    rfl
  · exact List.mem_append_right _ (List.mem_cons_of_mem _ (hgraft.mem f hf))

/-- The text from the start of a lane up to the end of its first child. -/
private theorem graft_opening (hs : t.Cuts l) {after : List Node}
    (h : StandingAll l t j fs (child :: after))
    (hcut : t.textBetween? (t.endAt j) (child.span t).2 = some text) :
    ∃ g forms, (solids fs)[0]? = some g ∧ GraftOf l fs g text forms := by
  obtain ⟨strays, g, post, rfl, hstrays, hg, -⟩ :=
    (show StandingAll l t _ _ ([] ++ child :: after) from h).split
  exact ⟨g, _, hstrays.solids_getElem? hg.isSolid,
    graft_of_gap hs h.spells hg hstrays.strays h.closed hcut⟩

/-- The text from the start of a child up to the start of the one behind it. -/
private theorem graft_before (hs : t.Cuts l) {before after : List Node}
    (h : StandingAll l t j fs (before ++ child :: next :: after))
    (hcut : t.textBetween? (child.span t).1 (next.span t).1 = some text) :
    ∃ g forms, (solids fs)[before.length]? = some g ∧ GraftOf l fs g text forms := by
  obtain ⟨pre, g, rest, rfl, hpre, hg, hrest⟩ := h.split
  obtain ⟨strays, p, post, rfl, hstrays, hnext, -⟩ :=
    (show StandingAll l t _ _ ([] ++ next :: after) from hrest).split
  have hlt := hg.stop_le
  have hlt' := hnext.stop_le
  have hpos := g.length_pos
  have hpos' := p.length_pos
  have hspells : t.Spells (j + (lexemesAll pre).length) (lexemesAll (g :: strays)) := by
    have hall := h.spells
    rw [← List.cons_append] at hall
    exact spells_middle hall
  have hlen : j + (lexemesAll pre).length + (lexemesAll (g :: strays)).length =
      j + (lexemesAll pre).length + g.lexemes.length + (lexemesAll strays).length := by
    simp [Nat.add_assoc]
  have hend := hs.startAt _ hnext.closed (.inl (by omega))
  rw [← hlen] at hend
  obtain ⟨text', htext', hreads⟩ := hspells.reads (hs.startAt _ hg.closed (.inl (by omega))) hend
    (hs.laidOut.startAt_mono (Nat.le_add_right _ _))
  rw [hg.span, hnext.span, ← hlen, htext'] at hcut
  cases hcut
  refine ⟨g, g :: strays, hpre.solids_getElem? hg.isSolid, hreads, ?_, fun f hf => ?_⟩
  · rw [solids_cons_of_isSolid hg.isSolid, hstrays.strays]
  · rw [List.mem_append, List.mem_cons, List.mem_append]
    rcases List.mem_cons.mp hf with rfl | hf
    · exact .inr (.inl rfl)
    · exact .inr (.inr (.inl hf))

/-- The text of a child, with a line end in front of it or behind it. -/
private theorem graft_alone (hs : t.Cuts l) {before after : List Node}
    (h : StandingAll l t j fs (before ++ child :: after)) (hcut : child.text? t = some text) :
    ∃ g forms, (solids fs)[before.length]? = some g ∧ GraftOf l fs g (text ++ ['\n']) forms := by
  obtain ⟨pre, g, post, rfl, hpre, hg, -⟩ := h.split
  obtain ⟨text', htext', hreads⟩ := hg.text hs
  rw [htext'] at hcut
  cases hcut
  refine ⟨g, [g], hpre.solids_getElem? hg.isSolid, ?_, ?_, by simp⟩
  · simpa using hreads.append l.reads_newline
  · rw [solids_cons_of_isSolid hg.isSolid]
    rfl

end Texts

section Placement

variable {l : Language} {p : Counterparts} {before after : List Node} {child : Node} {offset j lo : Nat}
  {text : List Char} {fs : List Form}

/-- A lane starts behind the same brace on both sides, or in front of the first construct of the base. -/
inductive LaneFrom (p : Counterparts) (child : Node) (j lo : Nat) : Prop
  | brace (base : laneStart p.baseSource p.base child.kind.isClause = some lo)
      (mod : laneStart p.modSource p.mod child.kind.isClause = some (p.modSource.endAt j))
  | front (base : laneStart p.baseSource p.base child.kind.isClause = none) (front : lo = frontOf p child)

/-- A child that only the mod has is placed behind the last sibling that the base has too, else at the
start of its lane, and what is put there reads as the child. -/
theorem Placement.graft (h : Placement p before child after offset text) (hs : p.modSource.Cuts l)
    (hlane : StandingAll l p.modSource j fs
      (before.filter child.sharesLane ++ child :: after.filter child.sharesLane))
    (hfrom : LaneFrom p child j lo) :
    offset = ((lastKept p.baseChildren (before.filter child.sharesLane)).map
        fun n => (n.span p.baseSource).2).getD lo ∧
      ∃ g forms, (solids fs)[(before.filter child.sharesLane).length]? = some g ∧
        GraftOf l fs g text forms := by
  have hanchor : anchorOf p.baseChildren before child =
      lastKept p.baseChildren (before.filter child.sharesLane) := by
    rw [anchorOf, precedingIn, lastKept, List.filter_reverse]
  have hnearest {previous : Node} (hp : (precedingIn before child).head? = some previous) :
      ∃ b, before.filter child.sharesLane = b ++ [previous] := by
    rw [precedingIn, List.filter_reverse, List.head?_reverse] at hp
    exact List.getLast?_eq_some_iff.mp hp
  have hnext {next : Node} (hn : after.find? child.sharesLane = some next) :
      ∃ a, after.filter child.sharesLane = next :: a := by
    rw [← List.head?_filter] at hn
    exact List.head?_eq_some_iff.mp hn
  cases h with
  | behind anchor previous _ found nearest cut =>
    obtain ⟨b, hb⟩ := hnearest nearest
    rw [← hanchor, found]
    refine ⟨rfl, ?_⟩
    rw [hb, List.append_assoc, List.singleton_append] at hlane
    rw [hb, List.length_append, List.length_singleton]
    exact graft_behind hs hlane cut
  | opening _ gap _ none start nearest cut =>
    cases hfrom with
    | front base => rw [base] at start; cases start
    | brace base mod =>
      rw [base] at start
      cases start
      rw [← hanchor, none]
      refine ⟨rfl, ?_⟩
      cases hp : (precedingIn before child).head? with
      | some previous =>
        obtain ⟨b, hb⟩ := hnearest hp
        rw [hp] at nearest
        cases nearest
        rw [hb, List.append_assoc, List.singleton_append] at hlane
        rw [hb, List.length_append, List.length_singleton]
        exact graft_behind hs hlane cut
      | none =>
        rw [hp, mod] at nearest
        cases nearest
        rw [precedingIn, List.filter_reverse, List.head?_reverse, List.getLast?_eq_none_iff] at hp
        rw [hp, List.nil_append] at hlane
        rw [hp]
        exact graft_opening hs hlane cut
  | bare _ _ none start nothing cut =>
    cases hfrom with
    | front base => rw [base] at start; cases start
    | brace base mod => rw [mod] at nothing; cases nothing
  | before next _ none start nearest cut =>
    cases hfrom with
    | brace base => rw [base] at start; cases start
    | front base front =>
      rw [← hanchor, none, front]
      refine ⟨rfl, ?_⟩
      obtain ⟨a, ha⟩ := hnext nearest
      rw [ha] at hlane
      exact graft_before hs hlane cut
  | last text none start nearest cut =>
    cases hfrom with
    | brace base => rw [base] at start; cases start
    | front base front =>
      rw [← hanchor, none, front]
      exact ⟨rfl, graft_alone hs hlane cut⟩

end Placement

end ModWeave
