import ModWeave.Proofs.Merge.Agree
import ModWeave.Proofs.Merge.Chain
import ModWeave.Proofs.Merge.Opened

/-! A block that is looked into stays a block, with other children. -/
namespace ModWeave

/-- A block stands for a node from token `i` on, with its statements and its clauses. -/
structure BlockAt (l : Language) (s : Source) (i k : Nat) (label : Label) (header : List Lexeme)
    (opening : Lexeme) (body : List Form) (closing : Lexeme) (clauses : List Form) (trail : List Lexeme)
    (x : Node) (m : ChildMap Node) (ns cs : List Node) : Prop where
  standing : Standing l s i (.block label header opening body closing clauses trail) x
  lanes : Lanes l s (i + header.length + 1) k body clauses m ns cs
  braces : x.braces? = some ⟨i + header.length, i + header.length + 1 + (lexemesAll body).length⟩
  children : x.children? = some m
  head : x.header = ⟨i, i + header.length⟩
  script : l = .script → trail = [] ∧ k = i + header.length + 1 + (lexemesAll body).length + 1
  markup : l = .markup → clauses = []

variable {l : Language} {s : Source} {i k : Nat} {label : Label} {header : List Lexeme}
  {opening closing : Lexeme} {body clauses : List Form} {trail : List Lexeme} {x : Node}
  {m : ChildMap Node} {ns cs : List Node} {gs : List Graft}

/-- A container that stands for a form stands for a block. -/
theorem Standing.blockAt {f : Form} {hd : Head} {b : Option Braces} {nodes : List Node}
    {index : List (String × Nat)} (h : Standing l s i f (.container hd b nodes index)) :
    ∃ k label header opening body closing clauses trail ns cs,
      f = .block label header opening body closing clauses trail ∧
      BlockAt l s i k label header opening body closing clauses trail (.container hd b nodes index)
        ⟨nodes, index⟩ ns cs := by
  have hstanding := h
  obtain ⟨hdepicts, hspells, hclosed, hsound⟩ := h
  cases hdepicts with
  | block i label header opening body closing clauses trail sig ns cs index statements chain keys indexed
      fresh =>
  rw [Form.lexemes] at hspells
  have hfront : s.Spells i (header ++ [opening]) := by
    rw [List.append_cons] at hspells
    exact hspells.left
  have hinner := hspells.right.tail
  have hopening := hfront.closed (List.getLast?_concat ..) hsound.closes_opening
  rw [List.length_append, List.length_singleton, ← Nat.add_assoc] at hopening
  have hbody := hsound.of_body
  have hclauses := hsound.of_clauses
  have hstatements : StandingAll l s (i + header.length + 1) body ns :=
    ⟨statements, hinner.left, hopening, fun f hf => (hbody f hf).1⟩
  obtain ⟨rfl, rfl, hcloses⟩ | ⟨rfl, rfl⟩ := hsound.tail
  · have hclosing : s.Spells (i + header.length + 1 + (lexemesAll body).length) [closing] := by
      have := hinner.right
      rw [← List.singleton_append] at this
      exact this.left
    have hchain : StandingAll .script s (i + header.length + 1 + (lexemesAll body).length + 1) clauses cs :=
      ⟨chain, hinner.right.tail.left, hclosing.closed rfl hcloses, fun f hf => (hclauses f hf).1⟩
    refine ⟨_, _, _, _, _, _, _, _, ns, cs, rfl, hstanding, ?_, rfl, rfl, rfl, fun _ => ⟨rfl, rfl⟩, by simp⟩
    exact ⟨rfl, hstatements, hchain, fun f hf => (hbody f hf).2, fun f hf => (hclauses f hf).2, keys, indexed,
      fresh⟩
  · cases chain
    have hnone : StandingAll .markup s 0 [] [] := ⟨.nil 0, List.nil_prefix, trivial, by simp⟩
    refine ⟨0, _, _, _, _, _, _, _, ns, [], rfl, hstanding, ?_, rfl, rfl, rfl, by simp, fun _ => rfl⟩
    exact ⟨rfl, hstatements, hnone, fun f hf => (hbody f hf).2, by simp, keys, indexed, fresh⟩

namespace BlockAt

/-- The header and the opening token stay, and what goes to the start of the body follows. -/
theorem weave_opening (h : BlockAt l s i k label header opening body closing clauses trail x m ns cs)
    (hs : s.Cuts l) (hread : Graft.AllRead l gs)
    (hgs : ∀ g ∈ gs, s.endAt (i + header.length + 1) ≤ g.addition.offset) :
    (x.span s).1 < s.endAt (i + header.length + 1) ∧
      Woven l s (x.span s).1 (s.endAt (i + header.length + 1)) gs [] []
        (header ++ [opening] ++ lexemesAll (graftsAt gs (s.endAt (i + header.length + 1)))) := by
  have hle := h.standing.stop_le
  have hlen : 0 < (Form.block label header opening body closing clauses trail).lexemes.length :=
    Form.length_pos _
  have hspells : s.Spells i (header ++ [opening]) := by
    have := h.standing.spells
    rw [Form.lexemes, List.append_cons] at this
    exact this.left
  have hstart := hs.startAt i h.standing.closed (.inl (by omega))
  have hend := hs.endAt _ h.lanes.statements.closed
  have hlt : s.startAt i < s.endAt (i + header.length + 1) :=
    hs.laidOut.startAt_lt_endAt_of_lt (by omega) (by omega)
  have hkeep := Renders.keep hstart hend (Nat.le_of_lt hlt) (by omega)
  have hbetween := hspells.between
  rw [List.length_append, List.length_singleton, ← Nat.add_assoc] at hbetween
  rw [hbetween] at hkeep
  rw [h.standing.span]
  exact ⟨hlt, .graft hkeep (by simp) hend.boundary hlt (fun g hg => .inr (hgs g hg)) hread⟩

/-- The lanes start behind the braces. -/
theorem laneStart_eq (h : BlockAt l s i k label header opening body closing clauses trail x m ns cs) :
    laneStart s x false = some (s.endAt (i + header.length + 1)) ∧
      (l = .script → laneStart s x true = some (s.endAt k)) := by
  rw [laneStart, laneStart, h.braces]
  refine ⟨by simp [Source.byteRange_of_lt], fun hl => ?_⟩
  rw [(h.script hl).2]
  simp [Source.byteRange_of_lt]

/-- Blocks of which the headers agree have headers of the same lexemes. -/
theorem header_eq {t : Source} {j k' : Nat} {label' : Label} {header' : List Lexeme}
    {opening' closing' : Lexeme} {body' clauses' : List Form} {trail' : List Lexeme} {y : Node}
    {m' : ChildMap Node} {ns' cs' : List Node}
    (h : BlockAt l s i k label header opening body closing clauses trail x m ns cs)
    (h' : BlockAt l t j k' label' header' opening' body' closing' clauses' trail' y m' ns' cs')
    (hsame : sameHeader s t x y = true) : header = header' := by
  have hspells := h.standing.spells
  have hspells' := h'.standing.spells
  rw [Form.lexemes] at hspells hspells'
  rw [sameHeader, sameTokens, h.head, h'.head, hspells.left.slice, hspells'.left.slice, beq_iff_eq] at hsame
  exact hsame

/-- The block ends behind its body. -/
theorem body_le (h : BlockAt l s i k label header opening body closing clauses trail x m ns cs)
    (hs : s.Cuts l) : s.endAt (i + header.length + 1 + (lexemesAll body).length) ≤ (x.span s).2 := by
  rw [h.standing.span]
  refine hs.laidOut.endAt_mono ?_
  simp only [Form.lexemes, List.length_append, List.length_cons]
  omega

/-- The clauses of a script's block start behind its closing token. -/
theorem closing_lt (h : BlockAt l s i k label header opening body closing clauses trail x m ns cs)
    (hl : l = .script) (hs : s.Cuts l) :
    s.endAt (i + header.length + 1 + (lexemesAll body).length) < s.endAt k := by
  obtain ⟨-, rfl⟩ := h.script hl
  have hspells := h.standing.spells.right.tail.right
  rw [← List.singleton_append] at hspells
  have hgap := hs.laidOut.endAt_le_startAt (i + header.length + 1 + (lexemesAll body).length)
  exact Nat.lt_of_le_of_lt hgap (hs.laidOut.startAt_lt_endAt (hspells.left.stop_le Nat.one_pos))

theorem stop_eq (h : BlockAt l s i k label header opening body closing clauses trail x m ns cs)
    (hl : l = .script) : (x.span s).2 = s.endAt (k + (lexemesAll clauses).length) := by
  obtain ⟨rfl, rfl⟩ := h.script hl
  have hlen : i + (Form.block label header opening body closing clauses []).lexemes.length =
      i + header.length + 1 + (lexemesAll body).length + 1 + (lexemesAll clauses).length := by
    simp only [Form.lexemes, List.append_nil, List.length_append, List.length_cons]
    omega
  rw [h.standing.span, hlen]

/-- The closing token of a script's block stays, and what goes in front of the clauses follows. -/
theorem weave_closing (h : BlockAt l s i k label header opening body closing clauses trail x m ns cs)
    (gs : List Graft) (hl : l = .script) (hs : s.Cuts l) (hread : Graft.AllRead l gs)
    (hgs : ∀ g ∈ gs, g.addition.offset ≤ s.endAt (i + header.length + 1 + (lexemesAll body).length) ∨
      s.endAt k ≤ g.addition.offset) :
    Woven l s (s.endAt (i + header.length + 1 + (lexemesAll body).length)) (s.endAt k) gs [] []
      ([closing] ++ lexemesAll (graftsAt gs (s.endAt k))) := by
  have hlt := h.closing_lt hl hs
  obtain ⟨-, rfl⟩ := h.script hl
  have hspells := h.standing.spells.right.tail.right
  rw [← List.singleton_append] at hspells
  have hstart := hs.endAt _ h.lanes.statements.closed_stop
  have hend := hs.endAt _ h.lanes.chain.closed
  have hkeep := Renders.keep hstart hend (Nat.le_of_lt hlt) (Nat.le_succ _)
  rw [show i + header.length + 1 + (lexemesAll body).length + 1 =
    i + header.length + 1 + (lexemesAll body).length + [closing].length from rfl, hspells.left.between] at hkeep
  exact .graft hkeep (by simp) hend.boundary hlt hgs hread

/-- The end tag of an element stays. -/
theorem weave_trail (h : BlockAt l s i k label header opening body closing clauses trail x m ns cs)
    (gs : List Graft) (hl : l = .markup) (hs : s.Cuts l)
    (hgs : ∀ g ∈ gs, g.addition.offset ≤ s.endAt (i + header.length + 1 + (lexemesAll body).length)) :
    Woven l s (s.endAt (i + header.length + 1 + (lexemesAll body).length)) (x.span s).2 gs [] []
      (closing :: trail) := by
  obtain rfl := h.markup hl
  have hspells : s.Spells (i + header.length + 1 + (lexemesAll body).length) (closing :: trail) :=
    h.standing.spells.right.tail.right
  have hstart := hs.endAt _ h.lanes.statements.closed_stop
  have hend := hs.endAt _ h.standing.closed_stop
  have hlen : i + (Form.block label header opening body closing [] trail).lexemes.length =
      i + header.length + 1 + (lexemesAll body).length + (closing :: trail).length := by
    simp only [Form.lexemes, lexemesAll_nil, List.nil_append, List.length_append, List.length_cons]
    omega
  rw [hlen] at hend
  have hle := hs.laidOut.endAt_mono
    (Nat.le_add_right (i + header.length + 1 + (lexemesAll body).length) (closing :: trail).length)
  have hkeep := Renders.keep hstart hend hle (Nat.le_add_right _ _)
  rw [hspells.between] at hkeep
  rw [h.standing.span, hlen]
  exact .of_renders hkeep (by simp) fun g hg => .inl (hgs g hg)

end BlockAt

end ModWeave
