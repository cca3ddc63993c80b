import ModWeave.Proofs.Tree.Element
import ModWeave.Proofs.Tree.Statement
import ModWeave.Tree.Language

/-! Runs: constructs that are read one behind the other. What holds of each construct that is read,
whenever it holds of the constructs inside of it, holds of all of them. -/
namespace ModWeave

/-- Whether a token may stand between two constructs. -/
def Language.isSpare : Language → Token → Bool
  | .script, t => t.isPunct ";"
  | .markup, _ => false

/-- Constructs read one behind the other from `ts` on up to `q`, with nothing but spare tokens between
them. `P` tells of each from where on it is read and what it leaves. -/
inductive Run (l : Language) (P : List Token → Construct → List Token → Prop) :
    List Token → List Construct → List Token → Prop
  | nil {ts : List Token} : Run l P ts [] ts
  | skip {ts m q : List Token} {cs : List Construct} (passed : Takes l.isSpare ts m)
      (more : Run l P m cs q) : Run l P ts cs q
  | cons {ts m q : List Token} {c : Construct} {cs : List Construct} (first : P ts c m)
      (shorter : m.length < ts.length) (more : Run l P m cs q) : Run l P ts (c :: cs) q

namespace Run

variable {l : Language} {P Q : List Token → Construct → List Token → Prop} {ts q : List Token}
  {cs : List Construct}

theorem length_le (h : Run l P ts cs q) : q.length ≤ ts.length := by
  induction h with
  | nil => exact Nat.le_refl _
  | skip passed _ ih => exact Nat.le_of_lt (Nat.lt_of_le_of_lt ih passed.length_lt)
  | cons _ shorter _ ih => omega

theorem mono (hPQ : ∀ ts c q, P ts c q → Q ts c q) (h : Run l P ts cs q) : Run l Q ts cs q := by
  induction h with
  | nil => exact .nil
  | skip passed _ ih => exact .skip passed ih
  | cons first shorter _ ih => exact .cons (hPQ _ _ _ first) shorter ih

end Run

namespace Script

variable {n : Nat} {P : List Token → Construct → List Token → Prop} {ts q : List Token}

theorem Opens.suffix {kind : NodeKind} {tag : String} {k : List Token} (h : Opens kind tag ts k) :
    k <:+ ts := by
  obtain ⟨u, rfl, -⟩ := local_opens kind tag k h
  exact List.suffix_append u k

theorem Opens.length_le {kind : NodeKind} {tag : String} {k : List Token} (h : Opens kind tag ts k) :
    k.length ≤ ts.length := h.suffix.length_le

theorem LeafAt.suffix {kind : NodeKind} {c : Construct} (h : LeafAt n kind ts c q) : q <:+ ts := by
  obtain ⟨tag, first, k, hbody, rfl, -⟩ := h
  obtain ⟨u, rfl, -⟩ := local_leafBody kind tag first k hbody
  exact (skip_suffix ";" k).trans (List.suffix_append u k)

theorem BlockAt.kind {kind : NodeKind} {c : Construct} (h : BlockAt n kind ts c q) : c.node.kind = kind := by
  obtain ⟨tag, k, braces, body, -, -, rfl⟩ := h
  rfl

theorem BlockAt.length_lt {kind : NodeKind} {c : Construct} (h : BlockAt n kind ts c q) :
    q.length < ts.length := by
  obtain ⟨tag, k, braces, body, hopens, hblock, -⟩ := h
  exact Nat.lt_of_lt_of_le hblock.length_lt hopens.length_le

/-- A statement that makes no construct is a lone `;`. -/
private theorem spare_of_none (h : Gives (statement n ts) none q) : Takes Language.script.isSpare ts q := by
  obtain ⟨-, h⟩ | ⟨_, _, -, h⟩ | ⟨_, _, -, -, h⟩ | ⟨_, -, h⟩ := gives_statement.mp h
  · exact h
  all_goals cases h

/-- The constructs that are read from `ts` on satisfy `P`. -/
private structure RunsFrom (n : Nat) (P : List Token → Construct → List Token → Prop)
    (ts : List Token) : Prop where
  statement (c : Option Construct) (q : List Token) (h : Gives (statement n ts) c q) :
    ∀ d ∈ c, P ts d q ∧ d.node.kind.isClause = false
  body (closing : Nat) (body : List Construct) (q : List Token)
    (h : Gives (blockRest n ts) (closing, body) q) :
    ∃ m, Run .script P ts body m ∧ (∀ c ∈ body, c.node.kind.isClause = false) ∧
      Takes (·.isPunct "\x7d") m q ∧ closing = n - m.length
  chain (cs : List Construct) (q : List Token) (h : GivesAny (clauses n ts) cs q) :
    Run .script P ts cs q ∧ ∀ c ∈ cs, c.node.kind.isClause = true

section

variable (leaf : ∀ {kind : NodeKind} {ts q : List Token} {c : Construct}, LeafAt n kind ts c q → P ts c q)
  (block : ∀ {kind : NodeKind} {tag : String} {ts k m l o q : List Token} {body more : List Construct},
    Opens kind tag ts k → Takes (·.isPunct "\x7b") k m → Run .script P m body l →
      (∀ c ∈ body, c.node.kind.isClause = false) → Takes (·.isPunct "\x7d") l o → Run .script P o more q →
      (∀ c ∈ more, c.node.kind.isClause = true) →
        P ts (.block kind tag (extent n ts q) (lineOf ts) ⟨n - k.length, n - l.length⟩ (body ++ more)) q)

include block in
private theorem blockAt_runs {kind : NodeKind} {c : Construct}
    (ih : ∀ m, m.length < ts.length → RunsFrom n P m) (h : BlockAt n kind ts c q) : P ts c q := by
  obtain ⟨tag, k, braces, body, hopens, hblock, rfl⟩ := h
  obtain ⟨m, hm, closing, hrest, rfl⟩ := gives_block.mp hblock
  have hlt := hm.length_lt
  have hle := hopens.length_le
  obtain ⟨l, hbody, hplain, hclose, rfl⟩ := (ih m (by omega)).body closing body q hrest
  have := block hopens (leaves_expectSign.mp hm) hbody hplain hclose .nil (by simp)
  rwa [List.append_nil] at this

include block in
private theorem conditionalAt_runs {c : Construct} (ih : ∀ m, m.length < ts.length → RunsFrom n P m)
    (h : ConditionalAt n ts c q) : P ts c q := by
  obtain ⟨k, braces, body, o, more, hopens, hblock, hmore, rfl⟩ := h
  have hshort := hblock.length_lt
  obtain ⟨m, hm, closing, hrest, rfl⟩ := gives_block.mp hblock
  have hlt := hm.length_lt
  have hle := hopens.length_le
  obtain ⟨l, hbody, hplain, hclose, rfl⟩ := (ih m (by omega)).body closing body o hrest
  obtain ⟨hclauses, hkinds⟩ := (ih o (by omega)).chain more q hmore
  exact block hopens (leaves_expectSign.mp hm) hbody hplain hclose hclauses hkinds

include leaf block in
private theorem runsFrom (ts : List Token) : RunsFrom n P ts := by
  induction hn : ts.length using Nat.strongRecOn generalizing ts with
  | ind _ ih =>
    subst hn
    replace ih (m : List Token) (hm : m.length < ts.length) : RunsFrom n P m := ih _ hm m rfl
    have hstatement : ∀ c q, Gives (statement n ts) c q →
        ∀ d ∈ c, P ts d q ∧ d.node.kind.isClause = false := by
      intro c q h
      obtain ⟨rfl, -⟩ | ⟨kind, d, hd, rfl⟩ | ⟨kind, d, hkind, hd, rfl⟩ | ⟨d, hd, rfl⟩ :=
        gives_statement.mp h
      · simp
      · obtain ⟨tag, first, k, hbody, -, rfl⟩ := id hd
        simpa using ⟨leaf hd, hbody.not_clause⟩
      · obtain ⟨tag, k, braces, body, -, -, rfl⟩ := id hd
        have hplain : kind.isClause = false := by obtain rfl | rfl := hkind <;> rfl
        simpa using ⟨blockAt_runs block ih hd, hplain⟩
      · obtain ⟨k, braces, body, m, more, -, -, -, rfl⟩ := id hd
        simpa using ⟨conditionalAt_runs block ih hd, rfl⟩
    refine ⟨hstatement, fun closing body q h => ?_, fun cs q h => ?_⟩
    · obtain ⟨hclose, rfl, rfl⟩ | ⟨-, c, m, more, hc, hmore, rfl⟩ := gives_blockRest.mp h
      · exact ⟨ts, .nil, by simp, hclose, rfl⟩
      · obtain ⟨l, hrun, hplain, hclose, rfl⟩ := (ih m hc.length_lt).body closing more q hmore
        cases c with
        | none => exact ⟨l, .skip (spare_of_none hc) hrun, hplain, hclose, rfl⟩
        | some c =>
          obtain ⟨hfirst, hkind⟩ := hstatement _ m hc c rfl
          exact ⟨l, .cons hfirst hc.length_lt hrun, List.forall_mem_cons.mpr ⟨hkind, hplain⟩, hclose, rfl⟩
    · obtain ⟨-, rfl, rfl⟩ | ⟨d, m, more, hd, hmore, rfl⟩ | ⟨d, hd, rfl⟩ := gives_clauses.mp h
      · exact ⟨.nil, by simp⟩
      · have hlt := hd.length_lt
        obtain ⟨hrun, hkinds⟩ := (ih m hlt).chain more q hmore
        exact ⟨.cons (blockAt_runs block ih hd) hlt hrun, List.forall_mem_cons.mpr ⟨hd.kind ▸ rfl, hkinds⟩⟩
      · exact ⟨.cons (blockAt_runs block ih hd) hd.length_lt .nil, by simp [hd.kind, NodeKind.isClause]⟩

include leaf block in
/-- What holds of every leaf, and of a block whenever it holds of what is in it, holds of all that is read
from a script. -/
theorem run_of_statements {cs : List Construct} (h : statements n ts = .ok cs) : Run .script P ts cs [] := by
  induction hn : ts.length using Nat.strongRecOn generalizing ts cs with
  | ind _ ih =>
    subst hn
    obtain ⟨rfl, rfl⟩ | ⟨c, m, more, hc, hmore, rfl⟩ := statements_iff.mp h
    · exact .nil
    · have hrest := ih _ hc.length_lt hmore rfl
      cases c with
      | none => exact .skip (spare_of_none hc) hrest
      | some c => exact .cons ((runsFrom leaf block ts).statement _ m hc c rfl).1 hc.length_lt hrest

end

/-- No clause stands outside of an `if`. -/
theorem not_clause_of_statements {cs : List Construct} (h : statements n ts = .ok cs) :
    ∀ c ∈ cs, c.node.kind.isClause = false := by
  have hfrom := runsFrom (n := n) (P := fun _ _ _ => True) (fun _ => trivial)
    (fun _ _ _ _ _ _ _ => trivial)
  induction hn : ts.length using Nat.strongRecOn generalizing ts cs with
  | ind _ ih =>
    subst hn
    obtain ⟨rfl, rfl⟩ | ⟨c, m, more, hc, hmore, rfl⟩ := statements_iff.mp h
    · simp
    · have hrest := ih _ hc.length_lt hmore rfl
      cases c with
      | none => exact hrest
      | some c => exact List.forall_mem_cons.mpr ⟨((hfrom ts).statement _ m hc c rfl).2, hrest⟩

end Script

namespace Markup

variable {n : Nat} {P : List Token → Construct → List Token → Prop} {ts q : List Token}

private theorem suffix_of_element {i : Nat} {c : Construct} (h : Gives (element n i ts) c q) : q <:+ ts := by
  obtain ⟨name, id, whole, hwhole⟩ := whole_of_element h
  obtain ⟨u, -, rfl, -⟩ := enclosed_whole name id whole _ hwhole
  exact List.suffix_append u q

/-- The elements that are read from `ts` on satisfy `P`. -/
private structure RunsFrom (n : Nat) (P : List Token → Construct → List Token → Prop)
    (ts : List Token) : Prop where
  element (i : Nat) (c : Construct) (q : List Token) (h : Gives (element n i ts) c q) :
    P ts c q ∧ c.node.kind.isClause = false
  contents (name : String) (i : Nat) (inner : Contents) (q : List Token)
    (h : Gives (contents n name i ts) inner q) :
    ∃ m, (inner.hasText = false → Run .markup P ts inner.elements m) ∧
      (∀ c ∈ inner.elements, c.node.kind.isClause = false) ∧
      Takes (·.isPunct "</") m q ∧ inner.closing = n - m.length

section

variable (leaf : ∀ {i : Nat} {name : String} {id : Option String} {ts q : List Token},
    q <:+ ts → q.length < ts.length → P ts (wholeAt n i name id ts q) q)
  (block : ∀ {i : Nat} {name : String} {id : Option String} {ts k m l o q : List Token}
    {body : List Construct}, Head name id ts k → Takes (·.isPunct ">") k m → Run .markup P m body l →
      (∀ c ∈ body, c.node.kind.isClause = false) → Takes (·.isPunct "</") l o → Leaves (endTag name o) q →
        P ts (.block .element (elementTag name id i) ⟨n - ts.length, n - q.length⟩
          ((ts.head?.map (·.place.line)).getD 1) ⟨n - k.length, n - l.length⟩ body) q)

include leaf block in
private theorem runsFrom (ts : List Token) : RunsFrom n P ts := by
  induction hn : ts.length using Nat.strongRecOn generalizing ts with
  | ind _ ih =>
    subst hn
    replace ih (m : List Token) (hm : m.length < ts.length) : RunsFrom n P m := ih _ hm m rfl
    have helement : ∀ i c q, Gives (element n i ts) c q → P ts c q ∧ c.node.kind.isClause = false := by
      intro i c q h
      have hlt := h.length_lt
      have hpassed := suffix_of_element h
      obtain ⟨name, id, k, hhead, ⟨-, rfl⟩ | ⟨m, inner, o, hm, hinner, hend, rfl⟩⟩ := gives_element.mp h
      · exact ⟨leaf hpassed hlt, rfl⟩
      · have hk := hhead.length_lt
        have hm' := hm.length_lt
        obtain ⟨l, hbody, hplain, hclose, hclosing⟩ := (ih m (by omega)).contents name 0 inner o hinner
        split
        · exact ⟨leaf hpassed hlt, rfl⟩
        · rename_i hbare
          rw [Bool.or_eq_true, not_or, Bool.not_eq_true, Bool.not_eq_true] at hbare
          rw [hclosing]
          exact ⟨block hhead hm (hbody hbare.2) hplain hclose hend, rfl⟩
    refine ⟨helement, fun name i inner q h => ?_⟩
    obtain ⟨hclose, rfl⟩ | ⟨m, more, hm, hmore, rfl⟩ | ⟨c, m, more, hc, hmore, rfl⟩ := gives_contents.mp h
    · exact ⟨ts, fun _ => .nil, by simp, hclose, rfl⟩
    · obtain ⟨l, -, hplain, hclose, hclosing⟩ := (ih m hm.length_lt).contents name i more q hmore
      exact ⟨l, fun hbare => (by cases hbare), hplain, hclose, hclosing⟩
    · obtain ⟨l, hrun, hplain, hclose, hclosing⟩ := (ih m hc.length_lt).contents name (i + 1) more q hmore
      obtain ⟨hfirst, hkind⟩ := helement i c m hc
      exact ⟨l, fun hbare => .cons hfirst hc.length_lt (hrun hbare),
        List.forall_mem_cons.mpr ⟨hkind, hplain⟩, hclose, hclosing⟩

include leaf block in
/-- What holds of every element without elements in it, and of an element whenever it holds of those in
it, holds of all that is read from a document. -/
theorem run_of_elements {i : Nat} {cs : List Construct} (h : elements n i ts = .ok cs) :
    Run .markup P ts cs [] := by
  induction hn : ts.length using Nat.strongRecOn generalizing i ts cs with
  | ind _ ih =>
    subst hn
    obtain ⟨rfl, rfl⟩ | ⟨c, m, more, hc, hmore, rfl⟩ := elements_iff.mp h
    · exact .nil
    · exact .cons ((runsFrom leaf block ts).element i c m hc).1 hc.length_lt
        (ih _ hc.length_lt hmore rfl)

end

end Markup

end ModWeave
