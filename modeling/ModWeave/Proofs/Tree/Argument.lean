import ModWeave.Proofs.Tree.Form
import ModWeave.Proofs.Tree.Rules

/-! What a call is told from others of its name by: the text of its first argument, which is a value of the
grammar up to a comma or to the bracket that closes the arguments. -/
namespace ModWeave.Script

/-- What tells a call, by the lexemes behind the bracket that opens its arguments: nothing if these are none,
else the lexemes of the first one with nothing in between. -/
inductive FirstArgument : List Lexeme → Option String → Prop
  | nothing (rest : List Lexeme) : FirstArgument ((.punct, ")") :: rest) none
  | value {ls : List Lexeme} {sign : String} (rest : List Lexeme) (hvalue : Derives rules value ls)
      (hsign : sign = "," ∨ sign = ")") :
      FirstArgument (ls ++ (.punct, sign) :: rest) (some (String.join (ls.map Prod.snd)))

/-- A call at the front of some lexemes, with its tag and what tells it from others under the tag. -/
inductive CallAt : List Lexeme → String → Option String → Prop
  | mk {name : String} {rest : List Lexeme} {firstArg : Option String} (h : FirstArgument rest firstArg) :
      CallAt ((.ident, name) :: (.punct, "(") :: rest) s!"funCall:{name}" firstArg

/-- Whether a construct and all in it, if they are calls, stand in the source as calls. -/
inductive Calls (s : Source) : Construct → Prop
  | leaf (kind : NodeKind) (tag : String) (tokens : Extent) (line : Nat) (firstArg : Option String)
      (call : kind = .funCall → CallAt (s.lexemes.drop tokens.first) tag firstArg) :
      Calls s (.leaf kind tag tokens line firstArg)
  | block (kind : NodeKind) (tag : String) (tokens : Extent) (line : Nat) (braces : Braces)
      (body : List Construct) (other : kind ≠ .funCall) (inside : ∀ c ∈ body, Calls s c) :
      Calls s (.block kind tag tokens line braces body)

theorem Calls.callAt {s : Source} {c : Construct} (h : Calls s c) (hkind : c.node.kind = .funCall) :
    CallAt (s.lexemes.drop c.node.tokens.first) c.node.signature c.node.head.firstArg := by
  cases h with
  | leaf _ _ _ _ _ call => exact call hkind
  | block _ _ _ _ _ _ other => exact absurd hkind other

section Reading

variable {n : Nat} {s : Source} {ts m r q : List Token} {first : Option String} {sign : String}

private theorem content_of_isPunct {t : Token} (ht : t.isPunct sign = true) : t.content = (.punct, sign) := by
  simp only [Token.isPunct, Bool.and_eq_true, beq_iff_eq] at ht
  exact Prod.ext ht.1 ht.2

/-- What is read as one value is derived as one. -/
private theorem passes_value_of_item (h : Item ts r) : Passes rules value ts r := by
  refine passes_value.mpr ?_
  obtain ⟨m, hm, k, hk, hr⟩ | ⟨-, hr⟩ := h
  · exact .inl ⟨m, hm, k, hk, (expressionsDerived k).expression hr⟩
  · exact .inr ((expressionsDerived ts).expression hr)

/-- The reader of arguments finds the first one. -/
private theorem firstArgument_of_values (h : GivesValues (values ")" ts) first r)
    (hclose : Takes (·.isPunct ")") r q) : FirstArgument (ts.map Token.content) first := by
  obtain ⟨t, rfl, ht⟩ := hclose
  obtain ⟨-, rfl, rfl⟩ | ⟨-, k, ⟨hitem, rfl⟩, hnext⟩ := values_iff.mp h
  · rw [List.map_cons, content_of_isPunct ht]
    exact .nothing _
  · obtain ⟨u, rfl, hu⟩ := passes_value_of_item hitem
    have htext : joinedTo (u ++ k) k = String.join ((u.map Token.content).map Prod.snd) := by
      simp only [joinedTo, List.length_append, Nat.add_sub_cancel, List.take_left, List.map_map]
      rfl
    obtain ⟨x, sign, rest, rfl, hx, hsign⟩ : ∃ x sign rest, k = x :: rest ∧ x.isPunct sign = true ∧
        (sign = "," ∨ sign = ")") := by
      obtain ⟨-, rfl⟩ | ⟨_, ⟨x, rfl, hx⟩, -⟩ := hnext
      · exact ⟨t, ")", q, rfl, ht, .inr rfl⟩
      · exact ⟨x, ",", _, rfl, hx, .inl rfl⟩
    rw [htext, List.map_append, List.map_cons, content_of_isPunct hx]
    exact .value _ hu hsign

/-- The body of a call is a call with its arguments. -/
private theorem callAt_of_leafBody {tag : String} (h : LeafBody .funCall tag first ts q) :
    CallAt (ts.map Token.content) tag first := by
  obtain ⟨x, rfl, m, ⟨t, rfl, ht⟩, args, ⟨k, hopen, l, ⟨hvalues, -⟩, hclose⟩, -⟩ := h
  obtain ⟨o, rfl, ho⟩ := leaves_expectSign.mp hopen
  simp only [isKeyword, Bool.and_eq_true, beq_iff_eq] at ht
  obtain ⟨⟨hident, -⟩, rfl⟩ := ht
  rw [List.map_cons, List.map_cons, content_of_isPunct ho, Token.content, hident]
  exact .mk (firstArgument_of_values hvalues (leaves_expectSign.mp hclose))

/-- A construct read from the end of a source stands in it as it is read. -/
private def StandsFrom (s : Source) (ts : List Token) (c : Construct) (q : List Token) : Prop :=
  ts <:+ s.tokens → Calls s c ∧ q <:+ s.tokens

private theorem calls_of_run {cs : List Construct} (h : Run .script (StandsFrom s) ts cs q)
    (hts : ts <:+ s.tokens) : (∀ c ∈ cs, Calls s c) ∧ q <:+ s.tokens := by
  induction h with
  | nil => exact ⟨by simp, hts⟩
  | skip passed _ ih => exact ih (passed.suffix.trans hts)
  | cons first _ _ ih =>
    obtain ⟨hc, hm⟩ := first hts
    obtain ⟨hcs, hq⟩ := ih hm
    exact ⟨List.forall_mem_cons.mpr ⟨hc, hcs⟩, hq⟩

private theorem Opens.not_funCall {kind : NodeKind} {tag : String} (h : Opens kind tag ts q) :
    kind ≠ .funCall := by
  rintro rfl
  exact h

/-- All calls of a script are known by their names and their first arguments. -/
theorem calls_of_statements {cs : List Construct} (h : statements s.tokens.length s.tokens = .ok cs) :
    ∀ c ∈ cs, Calls s c := by
  refine (calls_of_run (run_of_statements ?_ ?_ h) (List.suffix_refl _)).1
  · rintro kind ts q c hleaf hts
    obtain ⟨tag, first, k, hbody, -, rfl⟩ := id hleaf
    refine ⟨.leaf _ _ _ _ _ ?_, hleaf.suffix.trans hts⟩
    rintro rfl
    have hdrop : s.tokens.drop (s.tokens.length - ts.length) = ts := by
      obtain ⟨u, hu⟩ := hts
      rw [← hu, List.length_append, Nat.add_sub_cancel, List.drop_left]
    rw [extent, Source.lexemes, ← List.map_drop, hdrop]
    exact callAt_of_leafBody hbody
  · intro kind tag ts k m l o q body more hopens hm hbody _ ho hmore _ hts
    obtain ⟨hinside, hl⟩ := calls_of_run hbody (hm.suffix.trans (hopens.suffix.trans hts))
    obtain ⟨hclauses, hq⟩ := calls_of_run hmore (ho.suffix.trans hl)
    exact ⟨.block _ _ _ _ _ _ hopens.not_funCall (List.forall_mem_append.mpr ⟨hinside, hclauses⟩), hq⟩

end Reading

end ModWeave.Script
