import ModWeave.Proofs.Token.Layout
import ModWeave.Tree.Language

/-! Lexemes of a text, and the places where a text can be cut: what stands before such a place reads
as the same lexemes whatever is put behind it. -/
namespace ModWeave
open Text

/-- A token without its place. -/
abbrev Lexeme := TokenKind × String

namespace Source

def lexemes (s : Source) : List Lexeme := s.tokens.map Token.content

end Source

namespace Language

def lexemes? (l : Language) (text : List Char) : Option (List Lexeme) :=
  (l.source text).toOption.map Source.lexemes

/-- The text reads as these lexemes whatever follows it. -/
def Reads (l : Language) (cs : List Char) (ls : List Lexeme) : Prop :=
  ∀ rest, l.lexemes? (cs ++ rest) = (l.lexemes? rest).map (ls ++ ·)

/-- Whether a lexeme ends a construct and never runs into the one behind it. -/
def closes : Language → Lexeme → Bool
  | .script, l => l.1 == .punct && (l.2 == ";" || l.2 == "\x7b" || l.2 == "\x7d")
  | .markup, l => l.1 == .punct && (l.2 == ">" || l.2 == "/>")

theorem lexemes?_of_source {l : Language} {text : List Char} {s : Source} (h : l.source text = .ok s) :
    l.lexemes? text = some s.lexemes := by
  simp [lexemes?, h, Except.toOption]

variable {l : Language} {cs ds : List Char} {ls ms : List Lexeme}

theorem Reads.nil : l.Reads [] [] := by
  intro rest
  simp

theorem Reads.append (h : l.Reads cs ls) (k : l.Reads ds ms) : l.Reads (cs ++ ds) (ls ++ ms) := by
  intro rest
  rw [List.append_assoc, h, k, Option.map_map]
  congr 1
  funext x
  simp

/-- What stands behind a piece that reads by itself reads by itself too. -/
theorem Reads.cancel (h : l.Reads cs ls) (k : l.Reads (cs ++ ds) (ls ++ ms)) : l.Reads ds ms := by
  intro rest
  have hinj : Function.Injective (Option.map (ls ++ · : List Lexeme → List Lexeme)) := by
    apply Option.map_injective
    intro x y hxy
    exact List.append_cancel_left hxy
  apply hinj
  rw [← h, ← List.append_assoc, k, Option.map_map]
  congr 1
  funext x
  simp

end Language

/-- No token stands before token `i`, or one that ends a construct. -/
def Source.Closed (l : Language) (s : Source) : Nat → Prop
  | 0 => True
  | i + 1 => ∃ x, s.lexemes[i]? = some x ∧ l.closes x

/-- The text can be cut at byte `k`, behind its first `i` tokens. -/
def Source.Cut (l : Language) (s : Source) (k i : Nat) : Prop :=
  ∃ before after, s.text = before ++ after ∧ byteLength before = k ∧
    l.Reads before (s.lexemes.take i)

namespace Source.Cut
variable {l : Language} {s : Source} {k k' i i' : Nat}

theorem zero : s.Cut l 0 0 := ⟨[], s.text, rfl, rfl, Language.Reads.nil⟩

/-- Between two cuts stands a piece of the text that reads as the tokens between them. -/
theorem split (h : s.Cut l k i) (h' : s.Cut l k' i') (hk : k ≤ k') (hi : i ≤ i') :
    ∃ before cs after, s.text = before ++ (cs ++ after) ∧ byteLength before = k ∧
      k + byteLength cs = k' ∧ l.Reads cs ((s.lexemes.take i').drop i) := by
  obtain ⟨u, v, ht, rfl, hu⟩ := h
  obtain ⟨u', v', ht', rfl, hu'⟩ := h'
  obtain ⟨w, rfl, rfl⟩ := exists_append_of_byteLength_le (ht.symm.trans ht') hk
  refine ⟨u, w, v', ht, rfl, (byteLength_append u w).symm, ?_⟩
  have hsplit : s.lexemes.take i' = s.lexemes.take i ++ (s.lexemes.take i').drop i := by
    have := List.take_append_drop i (s.lexemes.take i')
    rwa [List.take_take, Nat.min_eq_left hi, eq_comm] at this
  rw [hsplit] at hu'
  exact hu.cancel hu'

theorem between (h : s.Cut l k i) (h' : s.Cut l k' i') (hk : k ≤ k') (hi : i ≤ i') :
    ∃ cs, s.textBetween? k k' = some cs ∧ l.Reads cs ((s.lexemes.take i').drop i) := by
  obtain ⟨u, w, v, ht, rfl, rfl, hreads⟩ := h.split h' hk hi
  refine ⟨w, ?_, hreads⟩
  rw [Source.textBetween?, ht, ← List.append_assoc, slice?_append]

end Source.Cut
end ModWeave
