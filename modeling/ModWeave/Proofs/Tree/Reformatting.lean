import ModWeave.Proofs.Merge.Completion
import ModWeave.Proofs.Token.Respacing
import ModWeave.Proofs.Tree.Lines
import ModWeave.Proofs.Tree.Run

/-! Scripts of the same lexemes. Readers see lexemes only, so that the same constructs are read, which
differ in their lines alone. -/
namespace ModWeave

/-- Tokens of the same lexemes, wherever they stand. -/
def Alike (ts' ts : List Token) : Prop := ts'.map Token.content = ts.map Token.content

section

variable {ts ts' r : List Token}

theorem Alike.length_eq (h : Alike ts' ts) : ts'.length = ts.length := by
  simpa using congrArg List.length h

theorem Alike.symm (h : Alike ts' ts) : Alike ts ts' := Eq.symm h

theorem Alike.headContent_eq (h : Alike ts' ts) : headContent ts' = headContent ts := by
  have := congrArg List.head? h
  rwa [List.head?_map, List.head?_map] at this

theorem Alike.any_eq (h : Alike ts' ts) {p : Token → Bool}
    (hp : ∀ t, p t = p ⟨t.content.1, t.content.2, .origin⟩) : ts'.head?.any p = ts.head?.any p :=
  Local.any_eq hp h.headContent_eq

/-- What a reader does with tokens, it does with others of the same lexemes. -/
theorem Local.alike {P : List Token → List Token → Prop} (hP : Local P ts) (h : P ts r)
    (hts : Alike ts' ts) : ∃ r', P ts' r' ∧ Alike r' r := by
  obtain ⟨u, rfl, -, hlocal⟩ := hP r h
  rw [Alike, List.map_append] at hts
  obtain ⟨u', r', rfl, hu, hr⟩ := List.map_eq_append_iff.mp hts
  exact ⟨r', hlocal u' r' hu (Alike.headContent_eq hr), hr⟩

end

namespace Script

variable {n : Nat} {ts ts' r : List Token}

theorem takes_alike {p : Token → Bool} (hp : ∀ t, p t = p ⟨t.content.1, t.content.2, .origin⟩)
    (h : Takes p ts r) (hts : Alike ts' ts) : ∃ r', Takes p ts' r' ∧ Alike r' r := by
  obtain ⟨t, rfl, ht⟩ := h
  obtain ⟨t', r', rfl, hcontent, hr⟩ := List.map_eq_cons_iff.mp hts
  exact ⟨r', ⟨t', rfl, by rw [hp, hcontent, ← hp]; exact ht⟩, hr⟩

theorem skip_alike {sign : String} (hts : Alike ts' ts) :
    Alike (skip sign ts').val (skip sign ts).val := by
  have hstart : startsWith sign ts' = startsWith sign ts := hts.any_eq fun _ => rfl
  obtain ⟨hs, h⟩ | h := skip_cases sign ts
  · obtain ⟨-, h'⟩ | h' := skip_cases sign ts'
    · rw [h, h']
      exact hts
    · rw [hs, startsWith_of_takes h'] at hstart
      cases hstart
  · obtain ⟨hs', -⟩ | h' := skip_cases sign ts'
    · rw [hs', startsWith_of_takes h] at hstart
      cases hstart
    · obtain ⟨r', hr', halike⟩ := takes_alike (fun _ => rfl) h hts
      rw [h'.unique hr']
      exact halike

theorem extent_alike {r' : List Token} (hts : Alike ts' ts) (hr : Alike r' r) :
    extent n ts' r' = extent n ts r := by
  rw [extent, extent, hts.length_eq, hr.length_eq]

theorem leafAt_alike {kind : NodeKind} {c : Construct} (h : LeafAt n kind ts c r)
    (hts : Alike ts' ts) : ∃ c' r', LeafAt n kind ts' c' r' ∧ Alike r' r ∧ c'.unlined = c.unlined := by
  obtain ⟨tag, first, k, hk, rfl, rfl⟩ := h
  obtain ⟨k', hk', halike⟩ := (local_leafBody kind tag first).alike hk hts
  refine ⟨_, _, ⟨tag, first, k', hk', rfl, rfl⟩, skip_alike halike, ?_⟩
  rw [leaf, leaf, Construct.unlined, Construct.unlined, extent_alike hts (skip_alike halike)]

/-- Tokens of the same lexemes as those from `ts` on are read as the same statements. -/
structure StatementsAlike (n : Nat) (ts : List Token) : Prop where
  statement {ts' r : List Token} {c : Option Construct} (hts : Alike ts' ts)
    (h : Gives (statement n ts) c r) :
    ∃ c' r', Gives (statement n ts') c' r' ∧ Alike r' r ∧ c'.map Construct.unlined = c.map Construct.unlined
  blockRest {ts' r : List Token} {closing : Nat} {body : List Construct} (hts : Alike ts' ts)
    (h : Gives (blockRest n ts) (closing, body) r) :
    ∃ body' r', Gives (blockRest n ts') (closing, body') r' ∧ Alike r' r ∧
      unlinedBody body' = unlinedBody body
  clauses {ts' r : List Token} {cs : List Construct} (hts : Alike ts' ts)
    (h : GivesAny (clauses n ts) cs r) :
    ∃ cs' r', GivesAny (clauses n ts') cs' r' ∧ Alike r' r ∧ unlinedBody cs' = unlinedBody cs

/-! One case for each reader, where the tokens of whatever is shorter than `ts` are read so. -/

section Shorter

variable {n : Nat} {ts ts' : List Token} (ih : ∀ m : List Token, m.length < ts.length → StatementsAlike n m)
  (hts : Alike ts' ts)

include ih hts

/-- The body behind an opening has the same braces. -/
private theorem body_alike {kind : NodeKind} {tag : String} {k r : List Token} {braces : Braces}
    {body : List Construct} (hk : Opens kind tag ts k) (h : Gives (block n k) (braces, body) r) :
    ∃ k' body' r', Opens kind tag ts' k' ∧ Gives (block n k') (braces, body') r' ∧ Alike r' r ∧
      unlinedBody body' = unlinedBody body := by
  obtain ⟨k', hk', hkalike⟩ := (local_opens kind tag).alike hk hts
  obtain ⟨m, hm, closing, hrest, rfl⟩ := gives_block.mp h
  obtain ⟨m', hm', hmalike⟩ := takes_alike (fun _ => rfl) (leaves_expectSign.mp hm) hkalike
  have h1 := hk.length_le
  have h2 := hm.length_lt
  obtain ⟨body', r', hrest', hralike, hbody⟩ := (ih m (by omega)).blockRest hmalike hrest
  refine ⟨k', body', r', hk', gives_block.mpr ⟨m', leaves_expectSign.mpr hm', closing, hrest', ?_⟩,
    hralike, hbody⟩
  rw [hkalike.length_eq]

private theorem blockAt_alike {kind : NodeKind} {c : Construct} {r : List Token} (h : BlockAt n kind ts c r) :
    ∃ c' r', BlockAt n kind ts' c' r' ∧ Alike r' r ∧ c'.unlined = c.unlined := by
  obtain ⟨tag, k, braces, body, hk, hr, rfl⟩ := h
  obtain ⟨k', body', r', hk', hr', hralike, hbody⟩ := body_alike ih hts hk hr
  refine ⟨_, r', ⟨tag, k', braces, body', hk', hr', rfl⟩, hralike, ?_⟩
  rw [Construct.unlined, Construct.unlined, extent_alike hts hralike, hbody]

private theorem statement_alike {r : List Token} {c : Option Construct} (h : Gives (statement n ts) c r) :
    ∃ c' r', Gives (statement n ts') c' r' ∧ Alike r' r ∧
      c'.map Construct.unlined = c.map Construct.unlined := by
  obtain ⟨rfl, hsemi⟩ | ⟨kind, d, hleaf, rfl⟩ | ⟨kind, d, hkind, hblock, rfl⟩ |
    ⟨d, ⟨k, braces, body, m, more, hk, hm, hr, rfl⟩, rfl⟩ := gives_statement.mp h
  · obtain ⟨r', hr', halike⟩ := takes_alike (fun _ => rfl) hsemi hts
    exact ⟨none, r', gives_statement.mpr (.inl ⟨rfl, hr'⟩), halike, rfl⟩
  · obtain ⟨d', r', hd', halike, hd⟩ := leafAt_alike hleaf hts
    exact ⟨some d', r', hd'.gives, halike, congrArg some hd⟩
  · obtain ⟨d', r', hd', halike, hd⟩ := blockAt_alike ih hts hblock
    exact ⟨some d', r', hd'.gives hkind, halike, congrArg some hd⟩
  · obtain ⟨k', body', m', hk', hm', hmalike, hbody⟩ := body_alike ih hts hk hm
    have h1 := hk.length_le
    have h2 := hm.length_lt
    obtain ⟨more', r', hr', hralike, hmore⟩ := (ih m (by omega)).clauses hmalike hr
    refine ⟨some _, r', ConditionalAt.gives ⟨k', braces, body', m', more', hk', hm', hr', rfl⟩, hralike,
      congrArg some ?_⟩
    rw [Construct.unlined, Construct.unlined, extent_alike hts hralike, unlinedBody_append,
      unlinedBody_append, hbody, hmore]

private theorem blockRest_alike {r : List Token} {closing : Nat} {body : List Construct}
    (h : Gives (blockRest n ts) (closing, body) r) :
    ∃ body' r', Gives (blockRest n ts') (closing, body') r' ∧ Alike r' r ∧
      unlinedBody body' = unlinedBody body := by
  obtain ⟨hr, rfl, rfl⟩ | ⟨hopen, c, m, more, hm, hr, rfl⟩ := gives_blockRest.mp h
  · obtain ⟨r', hr', halike⟩ := takes_alike (fun _ => rfl) hr hts
    refine ⟨[], r', gives_blockRest.mpr (.inl ⟨hr', ?_, rfl⟩), halike, rfl⟩
    rw [hts.length_eq]
  · have hopen' : startsWith "\x7d" ts' = false := by
      rw [← hopen]
      exact hts.any_eq fun _ => rfl
    obtain ⟨c', m', hm', hmalike, hc⟩ := statement_alike ih hts hm
    obtain ⟨more', r', hr', hralike, hmore⟩ := (ih m hm.length_lt).blockRest hmalike hr
    refine ⟨_, r', gives_blockRest.mpr (.inr ⟨hopen', c', m', more', hm', hr', rfl⟩), hralike, ?_⟩
    rw [unlinedBody_append, unlinedBody_append, unlinedBody_toList hc, hmore]

private theorem clauses_alike {r : List Token} {cs : List Construct} (h : GivesAny (clauses n ts) cs r) :
    ∃ cs' r', GivesAny (clauses n ts') cs' r' ∧ Alike r' r ∧ unlinedBody cs' = unlinedBody cs := by
  obtain ⟨helse, rfl, rfl⟩ | ⟨d, m, more, hm, hr, rfl⟩ | ⟨d, hr, rfl⟩ := gives_clauses.mp h
  · have helse' : ts'.head?.any (·.isWord "else") = false := by
      rw [← helse]
      exact hts.any_eq fun _ => rfl
    exact ⟨[], ts', gives_clauses.mpr (.inl ⟨helse', rfl, rfl⟩), hts, rfl⟩
  · obtain ⟨d', m', hm', hmalike, hd⟩ := blockAt_alike ih hts hm
    obtain ⟨more', r', hr', hralike, hmore⟩ := (ih m hm.length_lt).clauses hmalike hr
    refine ⟨_, r', gives_clauses.mpr (.inr (.inl ⟨d', m', more', hm', hr', rfl⟩)), hralike, ?_⟩
    simp only [unlinedBody, hd, hmore]
  · obtain ⟨d', r', hr', hralike, hd⟩ := blockAt_alike ih hts hr
    refine ⟨_, r', gives_clauses.mpr (.inr (.inr ⟨d', hr', rfl⟩)), hralike, ?_⟩
    simp only [unlinedBody, hd]

end Shorter

theorem statementsAlike (n : Nat) (ts : List Token) : StatementsAlike n ts := by
  induction hn : ts.length using Nat.strongRecOn generalizing ts with
  | ind l ih =>
    subst hn
    replace ih (m : List Token) (hm : m.length < ts.length) : StatementsAlike n m := ih _ hm m rfl
    exact {
      statement := fun hts => statement_alike ih hts
      blockRest := fun hts => blockRest_alike ih hts
      clauses := fun hts => clauses_alike ih hts }

theorem statements_alike {cs : List Construct} (hts : Alike ts' ts) (h : statements n ts = .ok cs) :
    ∃ cs', statements n ts' = .ok cs' ∧ unlinedBody cs' = unlinedBody cs := by
  induction hn : ts.length using Nat.strongRecOn generalizing ts ts' cs with
  | ind l ih =>
    subst hn
    obtain ⟨rfl, rfl⟩ | ⟨c, m, more, hm, hmore, rfl⟩ := statements_iff.mp h
    · obtain rfl : ts' = [] := by simpa [Alike] using hts
      exact ⟨[], h, rfl⟩
    · obtain ⟨c', m', hm', hmalike, hc⟩ := (statementsAlike n ts).statement hts hm
      obtain ⟨more', hmore', hunlined⟩ := ih m.length hm.length_lt hmalike hmore rfl
      refine ⟨_, statements_iff.mpr (.inr ⟨c', m', more', hm', hmore', rfl⟩), ?_⟩
      rw [unlinedBody_append, unlinedBody_append, unlinedBody_toList hc, hunlined]

/-- Texts of the same lexemes are both scripts or both not, and their trees differ in lines alone. -/
theorem parse_alike {text text' : List Char} {s s' : Source} {t : Tree} (hs : source text = .ok s)
    (hs' : source text' = .ok s') (halike : Alike s'.tokens s.tokens) (h : parse text = .ok t) :
    ∃ t', parse text' = .ok t' ∧ t'.root.unlined = t.root.unlined := by
  obtain ⟨s₁, hs₁, h⟩ := bind_eq_ok.mp h
  rw [hs] at hs₁
  cases hs₁
  obtain ⟨cs, hcs, h⟩ := bind_eq_ok.mp h
  cases h
  obtain ⟨cs', hcs', hunlined⟩ := statements_alike halike hcs
  rw [← halike.length_eq] at hcs'
  exact ⟨_, bind_eq_ok.mpr ⟨s', hs', bind_eq_ok.mpr ⟨cs', hcs', rfl⟩⟩,
    ofConstructs_unlined halike.length_eq hunlined⟩

/-- Other spacing is no change: the text reads as the same lexemes, it is a script if the other one is, and
then both have the same signatures at every level and nothing differs between them. -/
theorem respacing_is_no_change {text text' : List Char} {s : Source} (hs : source text = .ok s)
    (h : Respaced s.tokens text') :
    ∃ s', source text' = .ok s' ∧ s'.lexemes = s.lexemes ∧
      ((∃ t, parse text = .ok t) ↔ ∃ t', parse text' = .ok t') ∧
      ∀ t t', parse text = .ok t → parse text' = .ok t' →
        (∀ path, (t'.find? path).map Node.childSignatures = (t.find? path).map Node.childSignatures) ∧
        ∀ names, diff names t t' = some .none ∧ diff names t' t = some .none := by
  obtain ⟨s', hs', halike⟩ : ∃ s', source text' = .ok s' ∧ Alike s'.tokens s.tokens := by
    have hlexemes := lexemesFrom_respaced (q := .origin) (tokensFrom_of_source hs).2 h
    rw [← lexemes?_eq] at hlexemes
    obtain ⟨s', hs', halike⟩ := Option.map_eq_some_iff.mp hlexemes
    exact ⟨s', ok_of_toOption hs', halike⟩
  refine ⟨s', hs', halike, ⟨fun ⟨t, ht⟩ => ?_, fun ⟨t', ht'⟩ => ?_⟩, fun t t' ht ht' => ?_⟩
  · obtain ⟨t', ht', -⟩ := parse_alike hs hs' halike ht
    exact ⟨t', ht'⟩
  · obtain ⟨t, ht, -⟩ := parse_alike hs' hs halike.symm ht'
    exact ⟨t, ht⟩
  obtain ⟨t₁, ht₁, hunlined⟩ := parse_alike hs hs' halike ht
  rw [ht'] at ht₁
  cases ht₁
  have hsource {text : List Char} {s : Source} {t : Tree} (hs : source text = .ok s)
      (ht : parse text = .ok t) : t.source = s := by
    obtain ⟨s₁, hs₁, ht⟩ := bind_eq_ok.mp ht
    obtain ⟨cs, -, ht⟩ := bind_eq_ok.mp ht
    rw [hs] at hs₁
    cases hs₁
    cases ht
    rfl
  have hkeyed : t.root.Keyed := Language.keyed_of_parse (l := .script) ht
  have hkeyed' : t'.root.Keyed := Language.keyed_of_parse (l := .script) ht'
  have hsame : t.sameContent t' := by
    rw [Tree.sameContent, hsource hs ht, hsource hs' ht']
    exact hkeyed.sameContent_of_unlined halike hunlined
  have hsame' : t'.sameContent t := hkeyed.sameContent_symm hkeyed' hsame
  exact ⟨childSignatures_eq_of_unlined hunlined, fun names =>
    ⟨diff_of_sameContent hkeyed hkeyed' (Language.isContainer_of_parse (l := .script) ht) hsame,
      diff_of_sameContent hkeyed' hkeyed (Language.isContainer_of_parse (l := .script) ht') hsame'⟩⟩

/-- The tokens with one filler everywhere. -/
def spread (gap : List Char) (ts : List Token) : List Char :=
  ts.foldr (fun t cs => gap ++ (t.lexeme.toList ++ cs)) gap

theorem respaced_spread {gap : List Char} (h : Spacing gap) (ts : List Token) :
    Respaced ts (spread gap ts) := by
  induction ts with
  | nil => exact .last h
  | cons t ts ih => exact .token h ih

set_option maxRecDepth 100000 in
/-- Calls with comments of both kinds everywhere between their tokens. -/
theorem respacing_of_calls : ∃ s t t', source "f(1); if (a) { f(2); }".toList = .ok s ∧
    parse "f(1); if (a) { f(2); }".toList = .ok t ∧
    parse (spread "\n/* f */ // \n".toList s.tokens) = .ok t' ∧
    ∀ names, diff names t t' = some .none ∧ diff names t' t = some .none := by
  have hgap : Spacing "\n/* f */ // \n".toList := by
    refine ⟨?_, by decide +kernel⟩
    show Filler ('\n' :: '/' :: '*' :: ([' ', 'f', ' '] ++ '*' :: '/' :: ' ' :: '/' :: '/' :: ([' '] ++ ['\n'])))
    exact .blank (by decide) (.blockComment (by decide) (.blank (by decide)
      (.lineComment (by decide) .nil)))
  have hparse : (parse "f(1); if (a) { f(2); }".toList).toOption.isSome := by decide +kernel
  obtain ⟨t, ht⟩ := Option.isSome_iff_exists.mp hparse
  have ht := ok_of_toOption ht
  obtain ⟨s, hs, -⟩ := bind_eq_ok.mp ht
  obtain ⟨s', hs', -, hiff, hdiff⟩ := respacing_is_no_change hs (respaced_spread hgap s.tokens)
  obtain ⟨t', ht'⟩ := hiff.mp ⟨t, ht⟩
  exact ⟨s, t, t', hs, ht, ht', (hdiff t t' ht ht').2⟩

end Script

end ModWeave
