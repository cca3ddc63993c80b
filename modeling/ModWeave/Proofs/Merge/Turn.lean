import ModWeave.Proofs.Merge.Children
import ModWeave.Proofs.Merge.Difference
import ModWeave.Proofs.Merge.Edits
import ModWeave.Proofs.Merge.Graft
import ModWeave.Proofs.Merge.Lane
import ModWeave.Proofs.Merge.Order

/-! What two containers are merged to, whatever is chosen: each form comes from a child of one side, and
nothing that the second side has is missing. And what becomes of one child of the base: it stays, it goes, the
mod's child takes its place, or what is inside of it is merged. -/
namespace ModWeave

mutual

/-- The forms are made of the children of two containers. `rows` tells the signature under which each of
them is known where it comes from. -/
inductive Blends (l : Language) (s t : Source) : ChildMap Node → ChildMap Node → List Form → Prop
  | intro {i k j k' : Nat} {body clauses body' clauses' forms : List Form} {m m' : ChildMap Node}
      {ns cs ns' cs' : List Node} (rows : List (String × Form))
      (base : Lanes l s i k body clauses m ns cs) (mod : Lanes l t j k' body' clauses' m' ns' cs')
      (made : rows.map Prod.snd = solids forms) (apart : (rows.map Prod.fst).Nodup)
      (covers : ∀ n ∈ m'.nodes, ∃ f, (n.signature, f) ∈ rows)
      (each : ∀ p ∈ rows, ComesFrom l s t m m' p.1 p.2) : Blends l s t m m' forms

/-- The form comes from the children of that signature: it is what one of them stands for, or both of them
are looked into. -/
inductive ComesFrom (l : Language) (s t : Source) : ChildMap Node → ChildMap Node → String → Form → Prop
  | kept {m m' : ChildMap Node} {sig : String} {i : Nat} {f : Form} (n : Node)
      (found : m.get? sig = some n) (standing : Standing l s i f n)
      (closed : ∀ twin, m'.get? sig = some twin → ¬ DifferInside s t n twin) : ComesFrom l s t m m' sig f
  | taken {m m' : ChildMap Node} {sig : String} {i : Nat} {f : Form} (twin : Node)
      (found : m'.get? sig = some twin) (standing : Standing l t i f twin) : ComesFrom l s t m m' sig f
  | inside {m m' mn mt : ChildMap Node} {sig : String} {i : Nat} {label : Label} {header : List Lexeme}
      {opening closing : Lexeme} {body body' clauses clauses' : List Form} {trail : List Lexeme}
      (n twin : Node) (found : m.get? sig = some n) (found' : m'.get? sig = some twin)
      (differ : DifferInside s t n twin)
      (standing : Standing l s i (.block label header opening body' closing clauses' trail) n)
      (children : n.children? = some mn) (children' : twin.children? = some mt)
      (below : Blends l s t mn mt (body ++ clauses)) :
      ComesFrom l s t m m' sig (.block label header opening body closing clauses trail)

end

/-- Strays do not count. -/
theorem Blends.congr {l : Language} {s t : Source} {m m' : ChildMap Node} {fs gs : List Form}
    (h : Blends l s t m m' fs) (heq : solids fs = solids gs) : Blends l s t m m' gs := by
  obtain ⟨rows, base, mod, made, apart, covers, each⟩ := h
  exact .intro rows base mod (made.trans heq) apart covers each

/-- The edit of a record that is settled by a choice, if there is one. -/
def Conflict.chosen (choice : Conflict → Choice) (r : Conflict) : List Edit :=
  match (r.resolve (choice r)).edit with
  | .ok (some e) => [e]
  | _ => []

namespace Changes

variable {choice : Conflict → Choice} {c : Changes}

def chosen (choice : Conflict → Choice) (c : Changes) : List Edit :=
  c.conflicts.flatMap (Conflict.chosen choice)

def inserted (c : Changes) : List Edit := c.additions.map Addition.edit

/-- Every record can be settled as it is chosen. -/
def Settles (choice : Conflict → Choice) (c : Changes) : Prop :=
  ∀ r ∈ c.conflicts, ∃ e, (r.resolve (choice r)).edit = .ok e

theorem edits_settledBy (h : c.Settles choice) :
    (c.settledBy choice).edits = .ok (c.chosen choice ++ c.inserted) := by
  obtain ⟨es, hes⟩ : ∃ es, List.Forall₂ (fun r e => (r.resolve (choice r)).edit = .ok e) c.conflicts es :=
    exists_forall₂ h
  have hmapM : (c.conflicts.map fun r => r.resolve (choice r)).mapM Conflict.edit = .ok es :=
    mapM_of_forall₂ (List.forall₂_map_left_iff.mpr hes)
  have hchosen : es.filterMap id = c.chosen choice := by
    unfold chosen
    clear hmapM h
    generalize c.conflicts = rs at hes
    induction hes with
    | nil => rfl
    | @cons r e rs es hr _ ih =>
      rw [List.flatMap_cons, ← ih, Conflict.chosen, hr]
      cases e <;> rfl
  rw [edits, settledBy, hmapM, ← hchosen]
  rfl

end Changes

namespace Turned

variable {l : Language} {s : Source} {i : Nat} {f g : Form} {n : Node} {text : List Char}

theorem keep (hs : s.Cuts l) (hn : Standing l s i f n) : Turned l s n [] [] [f] := by
  have hpos := f.length_pos
  have hle := hn.stop_le
  have hstart := hs.startAt i hn.closed (.inl (by omega))
  have hlt := hs.laidOut.startAt_lt_endAt_of_lt (j := i + f.lexemes.length) (by omega)
    (show i < s.tokens.length by omega)
  have hkeep := Renders.keep hstart (hs.endAt _ hn.closed_stop) (Nat.le_of_lt hlt) (Nat.le_add_right _ _)
  rw [hn.spells.between] at hkeep
  refine ⟨?_, by simp, by simpa using hn.isSolid⟩
  rw [hn.span]
  simpa using hkeep

/-- What is put in the place of a child is read there. -/
theorem replace {ls : List Form} (hs : s.Cuts l) (hn : Standing l s i f n)
    (hread : l.Reads text (lexemesAll ls)) (hsolid : ∀ g ∈ ls, g.isSolid = true) :
    Turned l s n [⟨(n.span s).1, (n.span s).2, text⟩] [] ls := by
  have hpos := f.length_pos
  have hle := hn.stop_le
  have hstart := hs.startAt i hn.closed (.inl (by omega))
  have hlt := hs.laidOut.startAt_lt_endAt_of_lt (j := i + f.lexemes.length) (by omega)
    (show i < s.tokens.length by omega)
  rw [hn.span]
  refine ⟨?_, by simpa [hn.span] using hlt, hsolid⟩
  rw [hn.span]
  exact .replace hstart hstart (Nat.le_refl _) (Nat.le_of_lt hlt) hread

end Turned

section Forms

mutual

theorem Depicts.redefines {s : Source} {i : Nat} {f : Form} {n : Node} (h : Depicts s i f n) : f.redefines = false := by
  cases h with
  | leaf => rfl
  | block i label header opening body closing clauses trail sig ns cs index statements chain keys indexed
      fresh =>
    rw [Form.redefines, statements.redefines, chain.redefines, fresh]
    rfl

theorem DepictsAll.redefines {s : Source} {i : Nat} {fs : List Form} {ns : List Node} (h : DepictsAll s i fs ns) :
    anyRedefines fs = false := by
  cases h with
  | nil => rfl
  | stray _ _ rest => rw [anyRedefines, rest.redefines]; rfl
  | solid first rest => rw [anyRedefines, first.redefines, rest.redefines]; rfl

end

mutual

theorem Depicts.keyed {s : Source} {i : Nat} {f : Form} {n : Node} (h : Depicts s i f n) : n.Keyed := by
  cases h with
  | leaf => exact .leaf _
  | block i label header opening body closing clauses trail sig ns cs index statements chain keys indexed
      fresh =>
    refine .container _ _ _ _ indexed fun n hn => ?_
    rcases List.mem_append.mp hn with hn | hn
    · exact statements.keyed n hn
    · exact chain.keyed n hn

theorem DepictsAll.keyed {s : Source} {i : Nat} {fs : List Form} {ns : List Node} (h : DepictsAll s i fs ns) :
    ∀ n ∈ ns, n.Keyed := by
  cases h with
  | nil => simp
  | stray _ _ rest => exact rest.keyed
  | solid first rest =>
    rw [List.forall_mem_cons]
    exact ⟨first.keyed, rest.keyed⟩

end

variable {l : Language} {s t : Source} {i j : Nat} {f g : Form} {n m : Node}

/-- The first form is what the second one is: known by the same label, read as the same, with nothing
redefined in it and no clause behind an `else`. -/
structure Agrees (f g : Form) : Prop where
  label : f.label? = g.label?
  same : SameForm f g
  fresh : f.redefines = false
  ordered : f.ordered = true

/-- Forms that stand for nodes of the same content are known by the same label. -/
theorem Standing.label_eq (hn : Standing l s i f n) (hm : Standing l t j g m)
    (hsame : sameContent s t n m = true) : f.label? = g.label? := by
  have hform := (sameContent_iff hn.depicts hn.spells hm.depicts hm.spells).mp hsame
  have hsound := hn.sound
  have hsound' := hm.sound
  cases hform with
  | leaf label label' x ls => rw [hsound.leaf_label hsound']
  | block twin length mem same => rw [hsound.label?, hsound'.label?, hsound.block_label hsound']

/-- So they agree. -/
theorem Standing.agrees (hn : Standing l s i f n) (hm : Standing l t j g m)
    (hsame : sameContent s t n m = true) (hordered : f.ordered = true) : Agrees f g :=
  ⟨hn.label_eq hm hsame, (sameContent_iff hn.depicts hn.spells hm.depicts hm.spells).mp hsame,
    hn.depicts.redefines, hordered⟩

theorem Standing.agrees_self (hn : Standing l s i f n) (hordered : f.ordered = true) : Agrees f f :=
  hn.agrees hn hn.depicts.keyed.sameContent_refl hordered

end Forms

/-- Every record is settled for the mod's side. -/
def Changes.TakesMod (choice : Conflict → Choice) (c : Changes) : Prop :=
  ∀ r ∈ c.conflicts, (choice r).takesMod = true

/-- Two trees, and a choice for every record of what the second one changes in the first one. -/
structure Settlement where
  language : Language
  names : SourceNames
  base : Tree
  mod : Tree
  choice : Conflict → Choice

namespace Settlement

variable (w : Settlement)

/-- The record of a child that the mod lacks. -/
def removal (path : List String) (n : Node) : Conflict :=
  ⟨w.names, n.signature, path ++ [n.signature], ⟨w.base.source, n⟩, none, none⟩

/-- Where an `else` is added, the mod's side drops every clause behind it. -/
def Clear (a : Addition) : Prop :=
  a.signature = "else" → ∀ x children, w.base.find? a.parent = some x → x.children? = some children →
    ∀ n ∈ children.nodes, n.kind.isClause = true → a.offset ≤ (n.span w.base.source).1 →
      w.mod.find? (a.parent ++ [n.signature]) = none ∧ (w.choice (w.removal a.parent n)).takesMod = true

/-- What a container becomes when it is looked into. -/
structure MergesTo (x y : Node) (f g : Form) (c : Changes) (f' : Form) : Prop where
  turned : Turned w.language w.base.source x (c.chosen w.choice) c.inserted [f']
  settles : c.Settles w.choice
  sound : w.language.Sound f'
  label : f'.label? = f.label?
  ordered : w.language = .script → (f'.ordered = true ↔ ∀ a ∈ c.additions, w.Clear a)
  agrees : c.TakesMod w.choice → inSameOrder w.base.source w.mod.source x y = true → Agrees f' g
  comes : ∀ m m' sig, m.get? sig = some x → m'.get? sig = some y →
    ComesFrom w.language w.base.source w.mod.source m m' sig f'

/-- What is known of two containers that are looked into, wherever they stand for forms. -/
def Known (_ : List String) (x y : Node) (c : Changes) : Prop :=
  ∀ i f j g, Standing w.language w.base.source i f x → f.ordered = true →
    Standing w.language w.mod.source j g y → g.ordered = true → DifferInside w.base.source w.mod.source x y →
      ∃ f', w.MergesTo x y f g c f'

/-- What becomes of a child of the base, which the mod has among `others` or has not. `P` gives the forms
of the mod's children. -/
structure Fate (path : List String) (others : ChildMap Node) (P : Node → Form → Prop) (n : Node) (f : Form)
    (part : Changes) (fs : List Form) : Prop where
  turned : Turned w.language w.base.source n (part.chosen w.choice) part.inserted fs
  settles : part.Settles w.choice
  sound : ∀ f' ∈ fs, w.language.Sound f' ∧ f'.isClause = f.isClause ∧ f'.isElse = f.isElse
  gone : fs = [] ↔
    others.get? n.signature = none ∧ (w.choice (w.removal path n)).takesMod = true
  single : fs.length ≤ 1
  ordered : w.language = .script → ((∀ f' ∈ fs, f'.ordered = true) ↔ ∀ a ∈ part.additions, w.Clear a)
  dropped : part.TakesMod w.choice → others.get? n.signature = none → fs = []
  agrees : part.TakesMod w.choice → ∀ twin g, others.get? n.signature = some twin → P twin g →
    (DifferInside w.base.source w.mod.source n twin →
      inSameOrder w.base.source w.mod.source n twin = true) → ∃ f', fs = [f'] ∧ Agrees f' g
  comes : ∀ f' ∈ fs, ∀ m, m.get? n.signature = some n →
    ComesFrom w.language w.base.source w.mod.source m others n.signature f'

variable {w} {path : List String} {others : ChildMap Node} {P : Node → Form → Prop} {n : Node} {f : Form}
  {part : Changes} {i : Nat}

/-- A child that the mod lacks stays or goes. -/
private theorem fate_of_absent (hs : w.base.source.Cuts w.language)
    (hn : Standing w.language w.base.source i f n) (hf : f.ordered = true)
    (absent : others.get? n.signature = none) :
    ∃ fs, w.Fate path others P n f ⟨[w.removal path n], []⟩ fs := by
  have hnone (twin : Node) : others.get? n.signature ≠ some twin := by simp [absent]
  cases htakes : (w.choice (w.removal path n)).takesMod with
  | false =>
    have hedit := edit_of_kept (w.removal path n) htakes
    have hchosen : Changes.chosen w.choice ⟨[w.removal path n], []⟩ = [] := by
      simp [Changes.chosen, Conflict.chosen, hedit]
    refine ⟨[f], ?_, ?_, by simp [hn.sound], by simp [htakes], by simp, by simp [hf], ?_, ?_, ?_⟩
    · rw [hchosen]
      exact .keep hs hn
    · simp [Changes.Settles, hedit]
    · simp [Changes.TakesMod, htakes]
    · simp [Changes.TakesMod, htakes]
    · exact List.forall_mem_singleton.mpr fun m hm =>
        .kept n hm hn fun twin found => absurd found (hnone twin)
  | true =>
    have hedit : ((w.removal path n).resolve (w.choice (w.removal path n))).edit =
        .ok (some ⟨(n.span w.base.source).1, (n.span w.base.source).2, []⟩) := edit_of_dropped htakes rfl
    have hchosen : Changes.chosen w.choice ⟨[w.removal path n], []⟩ =
        [⟨(n.span w.base.source).1, (n.span w.base.source).2, []⟩] := by
      simp [Changes.chosen, Conflict.chosen, hedit]
    have hnil : w.language.Reads [] (lexemesAll []) := .nil
    refine ⟨[], ?_, ?_, by simp, by simp [htakes, absent], by simp, by simp, by simp,
      fun _ twin _ found => absurd found (hnone twin), by simp⟩
    · rw [hchosen]
      exact .replace hs hn hnil (by simp)
    · simp [Changes.Settles, hedit]

/-- A child that the mod has otherwise stays, or what the mod has takes its place. -/
private theorem fate_of_modified {twin : Node} {k : Nat} {g : Form} {text : List Char}
    (hs : w.base.source.Cuts w.language) (hn : Standing w.language w.base.source i f n)
    (hf : f.ordered = true) (found : others.get? n.signature = some twin) (hg : P twin g)
    (hfun : ∀ twin g g', P twin g → P twin g' → g = g')
    (hstand : Standing w.language w.mod.source k g twin) (hordered : g.ordered = true)
    (hwhole : ¬ DifferInside w.base.source w.mod.source n twin)
    (hclause : n.kind.isClause = twin.kind.isClause)
    (helse : (n.kind == .otherwise) = (twin.kind == .otherwise))
    (htext : twin.text? w.mod.source = some text) (hreads : w.language.Reads text g.lexemes) :
    ∃ fs, w.Fate path others P n f
      (conflictOf w.names w.base.source w.mod.source (path ++ [n.signature]) n (some twin)) fs := by
  let r : Conflict := ⟨w.names, n.signature, path ++ [n.signature], ⟨w.base.source, n⟩,
    some ⟨w.mod.source, twin⟩, none⟩
  change ∃ fs, w.Fate path others P n f ⟨[r], []⟩ fs
  cases htakes : (w.choice r).takesMod with
  | false =>
    have hedit := edit_of_kept r htakes
    have hchosen : Changes.chosen w.choice ⟨[r], []⟩ = [] := by
      simp [Changes.chosen, Conflict.chosen, hedit]
    refine ⟨[f], ?_, ?_, by simp [hn.sound], by simp [found], by simp, by simp [hf], by simp [found], ?_, ?_⟩
    · rw [hchosen]
      exact .keep hs hn
    · simp [Changes.Settles, hedit]
    · simp [Changes.TakesMod, htakes]
    · exact List.forall_mem_singleton.mpr fun m hm => .kept n hm hn fun twin' found' =>
        Option.some.inj (found.symm.trans found') ▸ hwhole
  | true =>
    have hedit := edit_of_taken (r := r) (m := ⟨w.mod.source, twin⟩) htakes rfl htext
    have hchosen : Changes.chosen w.choice ⟨[r], []⟩ =
        [⟨(n.span w.base.source).1, (n.span w.base.source).2, text⟩] := by
      simp [Changes.chosen, Conflict.chosen, hedit, r]
    have hreads' : w.language.Reads text (lexemesAll [g]) := by simpa using hreads
    refine ⟨[g], ?_, ?_, ?_, by simp [found], by simp, by simp [hordered], by simp [found], ?_,
      List.forall_mem_singleton.mpr fun m _ => .taken twin found hstand⟩
    · rw [hchosen]
      exact .replace hs hn hreads' (by simpa using hstand.isSolid)
    · simp [Changes.Settles, hedit]
    · simp [hstand.sound, ← hstand.isClause, ← hn.isClause, ← hstand.isElse, ← hn.isElse, hclause, helse]
    · intro _ twin' g' found' hg' _
      rw [found] at found'
      cases found'
      cases hfun _ _ _ hg hg'
      exact ⟨g, rfl, hstand.agrees_self hordered⟩

theorem exists_fate (hs : w.base.source.Cuts w.language) (ht : w.mod.source.Cuts w.language)
    (hn : Standing w.language w.base.source i f n) (hf : f.ordered = true)
    (hP : ∀ twin, others.get? n.signature = some twin →
      ∃ k g, P twin g ∧ Standing w.language w.mod.source k g twin ∧ g.ordered = true ∧
        n.kind.isClause = twin.kind.isClause ∧ (n.kind == .otherwise) = (twin.kind == .otherwise))
    (hfun : ∀ twin g g', P twin g → P twin g' → g = g')
    (h : ChildPart w.names w.base.source w.mod.source w.Known path others n part) :
    ∃ fs, w.Fate path others P n f part fs := by
  cases h with
  | removed absent => exact fate_of_absent hs hn hf absent
  | same twin found same =>
    obtain ⟨k, g, hg, hstand, hordered, -, -⟩ := hP twin found
    refine ⟨[f], .keep hs hn, by simp [Changes.Settles, Changes.none], by simp [hn.sound],
      by simp [found], by simp, by simp [hf, Changes.none], by simp [found], ?_, ?_⟩
    · intro _ twin' g' found' hg' _
      rw [found] at found'
      cases found'
      cases hfun _ _ _ hg hg'
      exact ⟨f, rfl, hn.agrees hstand same hf⟩
    · refine List.forall_mem_singleton.mpr fun m hm => .kept n hm hn fun twin' found' hdiffer => ?_
      rw [found] at found'
      cases found'
      rw [hdiffer.content] at same
      cases same
  | modified twin found differ whole =>
    obtain ⟨k, g, hg, hstand, hordered, hclause, helse⟩ := hP twin found
    obtain ⟨text, htext, hreads⟩ := hstand.text ht
    exact fate_of_modified hs hn hf found hg hfun hstand hordered whole hclause helse htext hreads
  | inside twin part found differ known =>
    obtain ⟨k, g, hg, hstand, hordered, hclause, helse⟩ := hP twin found
    obtain ⟨f', hmerges⟩ := known i f k g hn hf hstand hordered differ
    refine ⟨[f'], hmerges.turned, hmerges.settles, ?_, by simp [found], by simp, ?_, by simp [found], ?_,
      List.forall_mem_singleton.mpr fun m hm => hmerges.comes m others _ hm found⟩
    · simp [hmerges.sound, Form.isClause, Form.isElse, hmerges.label]
    · simpa using hmerges.ordered
    · intro htakes twin' g' found' hg' horder
      rw [found] at found'
      cases found'
      cases hfun _ _ _ hg hg'
      exact ⟨f', rfl, hmerges.agrees htakes (horder differ)⟩

end Settlement

end ModWeave
