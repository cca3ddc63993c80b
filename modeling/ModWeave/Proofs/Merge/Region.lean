import Mathlib.Data.List.Forall2
import ModWeave.Proofs.Merge.Splice
import ModWeave.Proofs.Tree.Content
import ModWeave.Proofs.Tree.Language

/-! Regions of a text that are rewritten so that they read as other lexemes. -/
namespace ModWeave
open Text

/-- Where a source can be cut, and that its tokens stand one behind the other. -/
structure Source.Cuts (l : Language) (s : Source) : Prop where
  laidOut : s.LaidOut
  endAt (i : Nat) (h : s.Closed l i) : s.Cut l (s.endAt i) i
  /-- Behind the last token of a script a comment may be open. -/
  startAt (i : Nat) (h : s.Closed l i) (hi : i < s.tokens.length ∨ l = .markup) :
    s.Cut l (s.startAt i) i

theorem Language.cuts {l : Language} {text : List Char} {s : Source} (h : l.source text = .ok s) :
    s.Cuts l := by
  cases l with
  | script =>
    refine ⟨Script.laidOut_of_source h, fun i hi => Script.cut_endAt h hi, fun i hi hlen => ?_⟩
    exact Script.cut_startAt h hi (hlen.resolve_right (by decide))
  | markup =>
    exact ⟨Markup.laidOut_of_source h, fun i hi => Markup.cut_endAt h hi,
      fun i hi _ => Markup.cut_startAt h hi⟩

theorem Source.Cut.boundary {l : Language} {s : Source} {k i : Nat} (h : s.Cut l k i) :
    s.Boundary k := by
  obtain ⟨before, after, hs, hk, -⟩ := h
  exact ⟨before, after, hs, hk⟩

/-- Edits inside a region of the text turn it into what reads as `ls`. -/
def Renders (l : Language) (s : Source) (lo hi : Nat) (es : List Edit) (ls : List Lexeme) : Prop :=
  ∃ out, Turns s lo hi es out ∧ l.Reads out ls

namespace Renders

variable {l : Language} {s : Source} {lo mid hi i j : Nat} {es fs : List Edit} {ls ms : List Lexeme}

theorem keep (h : s.Cut l lo i) (h' : s.Cut l hi j) (hbytes : lo ≤ hi) (htokens : i ≤ j) :
    Renders l s lo hi [] ((s.lexemes.take j).drop i) := by
  obtain ⟨before, out, after, hs, hlo, hhi, hreads⟩ := h.split h' hbytes htokens
  exact ⟨out, .keep hs hlo hhi, hreads⟩

theorem replace {start : Nat} {replacement : List Char} (h : s.Cut l lo i) (h' : s.Cut l start i)
    (hlo : lo ≤ start) (hhi : start ≤ hi) (hr : l.Reads replacement ls) :
    Renders l s lo hi [⟨start, hi, replacement⟩] ls := by
  obtain ⟨kept, hkept, hreads⟩ := h.between h' hlo (Nat.le_refl i)
  refine ⟨_, .replace hkept hlo hhi, ?_⟩
  have hnil : (s.lexemes.take i).drop i = [] := by simp
  rw [hnil] at hreads
  exact hreads.append hr

theorem insert {pieces : List (List Form)} (h : Renders l s lo hi es ls) (hb : s.Boundary hi)
    (hlo : lo ≤ hi)
    (hfs : List.Forall₂ (fun f p => f.start = hi ∧ f.stop = hi ∧
      l.Reads f.replacement (lexemesAll p)) fs pieces) :
    Renders l s lo hi (es ++ fs) (ls ++ lexemesAll pieces.flatten) := by
  obtain ⟨out, hturns, hreads⟩ := h
  refine ⟨_, hturns.insert hb hlo ?_, hreads.append ?_⟩
  · intro f hf
    obtain ⟨p, -, hstart, hstop, -⟩ := exists_of_forall₂_left hfs hf
    exact ⟨hstart, hstop⟩
  · clear hturns hreads
    induction hfs with
    | nil => exact .nil
    | cons hf _ ih =>
      rw [List.flatMap_cons, List.flatten_cons, lexemesAll_append]
      exact hf.2.2.append ih

theorem append (h : Renders l s lo mid (es.filter (·.stop ≤ mid)) ls)
    (k : Renders l s mid hi (es.filter (!·.stop ≤ mid)) ms) (hlo : lo ≤ mid) (hhi : mid ≤ hi) :
    Renders l s lo hi es (ls ++ ms) := by
  obtain ⟨out, hturns, hreads⟩ := h
  obtain ⟨out', hturns', hreads'⟩ := k
  exact ⟨_, hturns.append hturns' hlo hhi, hreads.append hreads'⟩

theorem inside (h : Renders l s lo hi es ls) :
    ∀ e ∈ es, lo ≤ e.start ∧ e.start ≤ e.stop ∧ e.stop ≤ hi := by
  obtain ⟨out, hturns, -⟩ := h
  exact hturns.inside

/-- When the regions end behind the last token, the whole text reads as what they read as. -/
theorem finish {text : List Char} (hs : l.source text = .ok s) (h : Renders l s 0 hi es ls)
    (hcut : s.Cut l hi s.tokens.length) :
    ∃ out, splice s.text 0 (es.mergeSort Edit.notAfter) = .ok out ∧ l.lexemes? out = some ls := by
  obtain ⟨out, hturns, hreads⟩ := h
  obtain ⟨before, after, htext, hlen, hbefore⟩ := hcut
  have hsplice := hturns.splice [] (by simp)
  have hdrop : dropBytes? hi s.text = some after := by rw [htext, ← hlen, dropBytes?_append]
  rw [List.append_nil, splice, hdrop] at hsplice
  refine ⟨out ++ after, hsplice, ?_⟩
  -- nothing is left behind the last token
  have hlexemes := hbefore after
  have hall : s.lexemes.take s.tokens.length = s.lexemes := List.take_of_length_le (by simp [Source.lexemes])
  rw [← htext, Language.text_of_source hs, Language.lexemes?_of_source hs, hall] at hlexemes
  obtain ⟨rest, hrest, hnil⟩ := Option.map_eq_some_iff.mp hlexemes.symm
  obtain rfl : rest = [] := by simpa using hnil
  rw [hreads, hrest]
  simp

end Renders

end ModWeave
