import ModWeave.Proofs.Tree.Form
import ModWeave.Proofs.Tree.Statement

/-! Scripts as forms. What is read from a script in which every leaf ends with `;` is sound, and sound
forms are read back wherever their lexemes stand, as long as no clause follows an `else`. -/
namespace ModWeave.Script

mutual

/-- Whether every leaf in a construct ends with `;`. -/
def terminated (s : Source) : Construct → Bool
  | .leaf _ _ tokens _ _ => s.lexemes[tokens.stop - 1]? == some semicolon
  | .block _ _ _ _ _ body => allTerminated s body

def allTerminated (s : Source) : List Construct → Bool
  | [] => true
  | c :: rest => terminated s c && allTerminated s rest

end

def openingBrace : Lexeme := (.punct, "\x7b")

def closingBrace : Lexeme := (.punct, "\x7d")

/-- Forms that scripts are made of. Where the lexemes of a leaf or of a header stand, the leaf or the
header is read. -/
inductive Sound : Form → Prop
  | stray : Sound (.stray semicolon)
  | leaf (kind : NodeKind) (tag : String) (first : Option String) (x : Lexeme) (ls ms : List Lexeme)
      (split : x :: ls = ms ++ [semicolon])
      (reads : ∀ u r, u.map Token.content = ms → headContent r = some semicolon →
        LeafBody kind tag first (u ++ r) r) :
      Sound (.leaf ⟨kind, fun _ => tag, first⟩ x ls)
  | block (kind : NodeKind) (tag : String) (header : List Lexeme) (body clauses : List Form)
      (reads : ∀ u r, u.map Token.content = header → headContent r = some openingBrace →
        Opens kind tag (u ++ r) r)
      (statements : ∀ f ∈ body, Sound f) (plain : ∀ f ∈ body, f.isClause = false)
      (chain : ∀ f ∈ clauses, Sound f) (hung : ∀ f ∈ clauses, f.isClause = true)
      (conditional : clauses ≠ [] → kind = .conditional) :
      Sound (.block ⟨kind, fun _ => tag, none⟩ header openingBrace body closingBrace clauses [])

/-- The last lexeme of a form never runs into what stands behind it. -/
theorem Sound.closes {f : Form} (h : Sound f) :
    ∃ y, f.lexemes.getLast? = some y ∧ Language.script.closes y = true := by
  induction h with
  | stray => exact ⟨semicolon, rfl, rfl⟩
  | leaf kind tag first x ls ms split =>
    exact ⟨semicolon, by rw [Form.lexemes, split, List.getLast?_concat], rfl⟩
  | block kind tag header body clauses reads statements plain chain hung conditional _ ih =>
    obtain rfl | ⟨cs, c, rfl⟩ := List.eq_nil_or_concat clauses
    · refine ⟨closingBrace, ?_, rfl⟩
      simp [Form.lexemes, List.getLast?_append, List.getLast?_cons]
    · obtain ⟨y, hy, hcloses⟩ := ih c (by simp)
      refine ⟨y, ?_, hcloses⟩
      simp [Form.lexemes, List.getLast?_append, List.getLast?_cons, hy]

section Soundness

private theorem allTerminated_append {s : Source} {cs ds : List Construct} :
    allTerminated s (cs ++ ds) = (allTerminated s cs && allTerminated s ds) := by
  induction cs with
  | nil => rfl
  | cons c cs ih => rw [List.cons_append, allTerminated, allTerminated, ih, Bool.and_assoc]

variable {s : Source} {i : Nat} {ts q : List Token}

/-- The lexemes of a form stand from `ts` on up to `q`, and the form has the constructs `cs`. -/
private structure Stands (s : Source) (i : Nat) (ts q : List Token) (fs : List Form)
    (cs : List Construct) : Prop where
  passed : ∃ u, ts = u ++ q ∧ u.map Token.content = lexemesAll fs
  constructs : ∀ j, cs = constructsAll s i j fs

private theorem headContent_of_takes {sign : String} {ts r : List Token}
    (h : Takes (·.isPunct sign) ts r) : headContent ts = some (.punct, sign) := by
  obtain ⟨t, rfl, ht⟩ := h
  simp only [Token.isPunct, Bool.and_eq_true, beq_iff_eq] at ht
  simp [headContent, Token.content, ht]

private theorem Stands.extent {u : List Token} (hts : s.Tail i ts) (hu : ts = u ++ q) :
    extent s.tokens.length ts q = ⟨i, i + u.length⟩ := by
  subst hu
  rw [Script.extent, hts.position, hts.right.position]

/-- A leaf that ends with `;` ends there because its body ends before. -/
private theorem leafAt_sound {kind : NodeKind} {c : Construct} (hts : s.Tail i ts)
    (h : LeafAt s.tokens.length kind ts c q) (hc : terminated s c = true) :
    ∃ f, Sound f ∧ f.isClause = false ∧ f.ordered = true ∧ Stands s i ts q [f] [c] := by
  obtain ⟨a, -, -, hq'⟩ := h.gives
  have hshort : q.length < ts.length := hq' ▸ a.shorter
  obtain ⟨tag, first, k, hbody, hq, rfl⟩ := h
  obtain ⟨u, rfl, hsemi, hlocal⟩ := local_leafBody kind tag first k hbody
  have hkind : kind.isClause = false := hbody.not_clause
  obtain ⟨hs, hskip⟩ | ⟨t, r, rfl, ht, h', hskip⟩ := eat_cases ";" k
  · -- without a `;` behind it, the last token of the body would have to be one
    rw [skip, hskip] at hq
    obtain rfl : k = q := hq
    rw [Script.leaf, Stands.extent hts rfl, terminated, beq_iff_eq] at hc
    obtain rfl | ⟨v, t, rfl⟩ := List.eq_nil_or_concat u
    · exact absurd hshort (by simp)
    · simp only [List.concat_eq_append, List.append_assoc] at hts hc hsemi
      have hlast := hts.right.lexeme
      simp only [List.length_append, List.length_singleton] at hc
      rw [Nat.add_sub_assoc (Nat.le_add_left 1 _), Nat.add_sub_cancel, hlast] at hc
      exact absurd (Option.some.inj hc) (hsemi t (by simp))
  · rw [skip, hskip] at hq
    obtain rfl : r = q := hq
    have hhead : headContent (t :: r) = some semicolon := headContent_of_takes ⟨t, rfl, ht⟩
    obtain ⟨x, ls, hxs⟩ : ∃ x ls, x :: ls = u.map Token.content ++ [semicolon] := by
      cases u <;> exact ⟨_, _, rfl⟩
    have hlen := congrArg List.length hxs
    rw [List.length_append, List.length_map, List.length_cons, List.length_singleton] at hlen
    have hu : u ++ t :: r = (u ++ [t]) ++ r := by simp
    refine ⟨.leaf ⟨kind, fun _ => tag, first⟩ x ls, .leaf kind tag first x ls _ hxs ?_, hkind, rfl, ?_, ?_⟩
    · exact fun u' r' hu' hr' => hlocal u' r' hu' (hr'.trans hhead.symm)
    · refine ⟨u ++ [t], hu, ?_⟩
      rw [List.map_append, lexemesAll_cons, lexemesAll_nil, List.append_nil, Form.lexemes, hxs]
      simpa [headContent, semicolon] using hhead
    · intro j
      have hext : extent s.tokens.length (u ++ t :: r) r = ⟨i, i + 1 + ls.length⟩ := by
        rw [Stands.extent hts hu, List.length_append, List.length_singleton, ← hlen, Nat.add_assoc,
          Nat.add_comm 1]
      rw [Script.leaf, hext, lineOf, hts.line]
      rfl

private theorem Stands.tail {fs : List Form} {cs : List Construct} (h : Stands s i ts q fs cs)
    (hts : s.Tail i ts) : s.Tail (i + (lexemesAll fs).length) q := by
  obtain ⟨u, rfl, hu⟩ := h.passed
  rw [← hu, List.length_map]
  exact hts.right

private theorem Stands.append {m : List Token} {fs gs : List Form} {cs ds : List Construct}
    (h : Stands s i ts m fs cs) (k : Stands s (i + (lexemesAll fs).length) m q gs ds) :
    Stands s i ts q (fs ++ gs) (cs ++ ds) := by
  obtain ⟨u, rfl, hu⟩ := h.passed
  obtain ⟨v, rfl, hv⟩ := k.passed
  refine ⟨⟨u ++ v, by rw [List.append_assoc], by rw [List.map_append, hu, hv, lexemesAll_append]⟩,
    fun j => ?_⟩
  rw [constructsAll_append, h.constructs j, ← k.constructs]

private theorem Stands.length_lt {f : Form} {cs : List Construct} (h : Stands s i ts q [f] cs) :
    q.length < ts.length := by
  obtain ⟨u, rfl, hu⟩ := h.passed
  have hlen := congrArg List.length hu
  have := f.length_pos
  rw [List.length_map, lexemesAll_cons, lexemesAll_nil, List.append_nil] at hlen
  rw [List.length_append]
  omega

/-- What is read from `ts` on stands for sound forms. -/
private structure ReadsSound (s : Source) (i : Nat) (ts : List Token) : Prop where
  statement (c : Option Construct) (q : List Token)
    (h : Gives (statement s.tokens.length ts) c q) (hc : allTerminated s c.toList = true) :
    ∃ fs, (∀ f ∈ fs, Sound f) ∧ (∀ f ∈ fs, f.isClause = false) ∧ orderedAll fs = true ∧
      Stands s i ts q fs c.toList
  body (closing : Nat) (body : List Construct) (q : List Token)
    (h : Gives (blockRest s.tokens.length ts) (closing, body) q) (hc : allTerminated s body = true) :
    ∃ fs m, (∀ f ∈ fs, Sound f) ∧ (∀ f ∈ fs, f.isClause = false) ∧ orderedAll fs = true ∧
      Stands s i ts m fs body ∧ Takes (·.isPunct "\x7d") m q ∧ closing = s.tokens.length - m.length
  chain (cs : List Construct) (q : List Token)
    (h : GivesAny (clauses s.tokens.length ts) cs q) (hc : allTerminated s cs = true) :
    ∃ fs, (∀ f ∈ fs, Sound f) ∧ (∀ f ∈ fs, f.isClause = true) ∧ orderedAll fs = true ∧
      elseLast fs = true ∧ Stands s i ts q fs cs

private theorem isClause_of_kind {f : Form} {kind : NodeKind}
    (h : f.label?.map Label.kind = some kind) : f.isClause = kind.isClause := by
  obtain ⟨l, hl, rfl⟩ := Option.map_eq_some_iff.mp h
  rw [Form.isClause, hl, Option.any_some]

private theorem isElse_of_kind {f : Form} {kind : NodeKind}
    (h : f.label?.map Label.kind = some kind) : f.isElse = (kind == .otherwise) := by
  obtain ⟨l, hl, rfl⟩ := Option.map_eq_some_iff.mp h
  rw [Form.isElse, hl, Option.any_some]

/-! One case for each reader, where whatever is read of less than `ts` stands for sound forms. -/

section Shorter

variable (ih : ∀ i m, m.length < ts.length → s.Tail i m → ReadsSound s i m) (hts : s.Tail i ts)

include ih hts

/-- The header and the braced body of a block. -/
private theorem frame_sound {kind : NodeKind} {tag : String} {k m : List Token} {braces : Braces}
    {body : List Construct} (hopens : Opens kind tag ts k) (h : Gives (block s.tokens.length k) (braces, body) m)
    (hc : allTerminated s body = true) :
    ∃ header fs, (∀ u r, u.map Token.content = header → headContent r = some openingBrace →
        Opens kind tag (u ++ r) r) ∧
      (∀ f ∈ fs, Sound f) ∧ (∀ f ∈ fs, f.isClause = false) ∧ orderedAll fs = true ∧
      (∃ u, ts = u ++ m ∧
        u.map Token.content = header ++ openingBrace :: (lexemesAll fs ++ [closingBrace])) ∧
      braces = ⟨i + header.length, i + header.length + 1 + (lexemesAll fs).length⟩ ∧
      ∀ j, body = constructsAll s (i + header.length + 1) j fs := by
  obtain ⟨u, rfl, -, hlocal⟩ := local_opens kind tag k hopens
  obtain ⟨v, hv, closing, hrest, rfl⟩ := gives_block.mp h
  have hopening := leaves_expectSign.mp hv
  have hhead : headContent k = some openingBrace := headContent_of_takes hopening
  obtain ⟨t, rfl, ht⟩ := hopening
  have hv' := hts.right.tail
  obtain ⟨fs, w, hsound, hplain, hordered, hstands, hclose, rfl⟩ :=
    (ih _ v (by simp [Nat.lt_add_left]) hv').body closing body m hrest hc
  have hend : headContent w = some closingBrace := headContent_of_takes hclose
  have hposition := (hstands.tail hv').position
  obtain ⟨w', rfl, hw'⟩ := hstands.passed
  obtain ⟨t', rfl, ht'⟩ := hclose
  refine ⟨u.map Token.content, fs, fun u' r' hu' hr' => hlocal u' r' hu' (hr'.trans hhead.symm), hsound,
    hplain, hordered, ⟨u ++ t :: (w' ++ [t']), by simp, ?_⟩, ?_, ?_⟩
  · have ht : t.content = openingBrace := Option.some.inj hhead
    have ht' : t'.content = closingBrace := Option.some.inj hend
    simp only [List.map_append, List.map_cons, List.map_nil, hw', ht, ht']
  · rw [List.length_map, hts.right.position, hposition]
  · rw [List.length_map]
    exact hstands.constructs

private theorem blockAt_sound {kind : NodeKind} {c : Construct} (h : BlockAt s.tokens.length kind ts c q) (hc : terminated s c = true) :
    ∃ f, Sound f ∧ f.label?.map Label.kind = some kind ∧ f.ordered = true ∧ Stands s i ts q [f] [c] := by
  obtain ⟨tag, k, braces, body, hopens, hblock, rfl⟩ := h
  rw [terminated] at hc
  obtain ⟨header, fs, hreads, hsound, hplain, hordered, ⟨u, rfl, hu⟩, rfl, hbody⟩ :=
    frame_sound ih hts hopens hblock hc
  refine ⟨.block ⟨kind, fun _ => tag, none⟩ header openingBrace fs closingBrace [] [],
    .block kind tag header fs [] hreads hsound hplain (by simp) (by simp) (by simp), rfl, ?_, ?_, ?_⟩
  · simp [Form.ordered, hordered, orderedAll, elseLast]
  · exact ⟨u, rfl, by simp [hu, Form.lexemes]⟩
  · intro j
    have hlen : u.length = header.length + 1 + (lexemesAll fs).length + 1 := by
      rw [← List.length_map, hu]
      simp only [List.length_append, List.length_cons, List.length_nil]
      omega
    rw [Stands.extent hts rfl, lineOf, hts.line, hbody 0, hlen]
    simp [constructsAll, Form.constructs, Nat.add_assoc]

private theorem conditionalAt_sound {c : Construct} (h : ConditionalAt s.tokens.length ts c q) (hc : terminated s c = true) :
    ∃ f, Sound f ∧ f.isClause = false ∧ f.ordered = true ∧ Stands s i ts q [f] [c] := by
  obtain ⟨k, braces, body, m, more, hopens, hblock, hmore, rfl⟩ := h
  rw [terminated, allTerminated_append, Bool.and_eq_true] at hc
  obtain ⟨header, fs, hreads, hsound, hplain, hordered, ⟨u, rfl, hu⟩, rfl, hbody⟩ :=
    frame_sound ih hts hopens hblock hc.1
  have hlen : u.length = header.length + 1 + (lexemesAll fs).length + 1 := by
    rw [← List.length_map, hu]
    simp only [List.length_append, List.length_cons, List.length_nil]
    omega
  obtain ⟨gs, hgs, hhung, hordered', hlast, hstands⟩ :=
    (ih _ m (by simp [hlen]) hts.right).chain more q hmore hc.2
  obtain ⟨v, rfl, hv⟩ := hstands.passed
  have hlen' : v.length = (lexemesAll gs).length := by rw [← hv, List.length_map]
  refine ⟨.block ⟨.conditional, fun _ => "if", none⟩ header openingBrace fs closingBrace gs [],
    .block .conditional "if" header fs gs hreads hsound hplain hgs hhung fun _ => rfl, rfl, ?_, ?_, ?_⟩
  · simp [Form.ordered, hordered, hordered', hlast]
  · exact ⟨u ++ v, by simp, by simp [hu, hv, Form.lexemes]⟩
  · intro j
    have hmore := hstands.constructs (labelsOf fs).length
    rw [hlen, ← Nat.add_assoc, ← Nat.add_assoc, ← Nat.add_assoc] at hmore
    rw [Stands.extent hts (List.append_assoc ..).symm, lineOf, hts.line, hbody 0, hmore,
      List.length_append, hlen, hlen']
    simp [constructsAll, Form.constructs, Nat.add_assoc]

private theorem statement_sound (c : Option Construct) (q : List Token)
    (h : Gives (statement s.tokens.length ts) c q) (hc : allTerminated s c.toList = true) :
    ∃ fs, (∀ f ∈ fs, Sound f) ∧ (∀ f ∈ fs, f.isClause = false) ∧ orderedAll fs = true ∧
      Stands s i ts q fs c.toList := by
  obtain ⟨rfl, hsemi⟩ | ⟨kind, d, hd, rfl⟩ | ⟨kind, d, hkind, hd, rfl⟩ | ⟨d, hd, rfl⟩ :=
    gives_statement.mp h
  · have hhead : headContent ts = some semicolon := headContent_of_takes hsemi
    obtain ⟨t, rfl, -⟩ := hsemi
    have ht : t.content = semicolon := Option.some.inj hhead
    exact ⟨[.stray semicolon], by simp [Sound.stray], by simp [Form.isClause, Form.label?], rfl,
      ⟨[t], rfl, by simp [ht, Form.lexemes]⟩, fun j => rfl⟩
  · rw [Option.toList_some, allTerminated, Bool.and_eq_true] at hc
    obtain ⟨f, hf, hplain, hordered, hstands⟩ := leafAt_sound hts hd hc.1
    exact ⟨[f], by simpa using hf, by simpa using hplain, by simp [orderedAll, hordered], hstands⟩
  · rw [Option.toList_some, allTerminated, Bool.and_eq_true] at hc
    obtain ⟨f, hf, hlabel, hordered, hstands⟩ := blockAt_sound ih hts hd hc.1
    have hplain : f.isClause = false := by
      rw [isClause_of_kind hlabel]
      obtain rfl | rfl := hkind <;> rfl
    exact ⟨[f], by simpa using hf, by simpa using hplain, by simp [orderedAll, hordered], hstands⟩
  · rw [Option.toList_some, allTerminated, Bool.and_eq_true] at hc
    obtain ⟨f, hf, hplain, hordered, hstands⟩ := conditionalAt_sound ih hts hd hc.1
    exact ⟨[f], by simpa using hf, by simpa using hplain, by simp [orderedAll, hordered], hstands⟩

private theorem body_sound (closing : Nat) (body : List Construct) (q : List Token)
    (h : Gives (blockRest s.tokens.length ts) (closing, body) q) (hc : allTerminated s body = true) :
    ∃ fs m, (∀ f ∈ fs, Sound f) ∧ (∀ f ∈ fs, f.isClause = false) ∧ orderedAll fs = true ∧
      Stands s i ts m fs body ∧ Takes (·.isPunct "\x7d") m q ∧ closing = s.tokens.length - m.length := by
  obtain ⟨hclose, rfl, rfl⟩ | ⟨-, c, m, more, hc', hmore, rfl⟩ := gives_blockRest.mp h
  · exact ⟨[], ts, by simp, by simp, rfl, ⟨⟨[], rfl, rfl⟩, fun _ => rfl⟩, hclose, rfl⟩
  · rw [allTerminated_append, Bool.and_eq_true] at hc
    obtain ⟨fs, hfs, hplain, hordered, hstands⟩ := statement_sound ih hts c m hc' hc.1
    obtain ⟨gs, m', hgs, hplain', hordered', hstands', hclose, rfl⟩ :=
      (ih _ m hc'.length_lt (hstands.tail hts)).body closing more q hmore hc.2
    refine ⟨fs ++ gs, m', ?_, ?_, ?_, hstands.append hstands', hclose, rfl⟩
    · exact List.forall_mem_append.mpr ⟨hfs, hgs⟩
    · exact List.forall_mem_append.mpr ⟨hplain, hplain'⟩
    · rw [orderedAll_append, hordered, hordered', Bool.and_self]

private theorem chain_sound (cs : List Construct) (q : List Token)
    (h : GivesAny (clauses s.tokens.length ts) cs q) (hc : allTerminated s cs = true) :
    ∃ fs, (∀ f ∈ fs, Sound f) ∧ (∀ f ∈ fs, f.isClause = true) ∧ orderedAll fs = true ∧
      elseLast fs = true ∧ Stands s i ts q fs cs := by
  obtain ⟨-, rfl, rfl⟩ | ⟨d, m, more, hd, hmore, rfl⟩ | ⟨d, hd, rfl⟩ := gives_clauses.mp h
  · exact ⟨[], by simp, by simp, rfl, rfl, ⟨[], rfl, rfl⟩, fun _ => rfl⟩
  · rw [allTerminated, Bool.and_eq_true] at hc
    obtain ⟨f, hf, hlabel, hordered, hstands⟩ := blockAt_sound ih hts hd hc.1
    have hlt := hstands.length_lt
    obtain ⟨fs, hfs, hhung, hordered', hlast, hstands'⟩ :=
      (ih _ m hlt (hstands.tail hts)).chain more q hmore hc.2
    have hclause : f.isClause = true := isClause_of_kind hlabel
    have helse : f.isElse = false := isElse_of_kind hlabel
    refine ⟨f :: fs, ?_, ?_, ?_, ?_, hstands.append hstands'⟩
    · exact List.forall_mem_cons.mpr ⟨hf, hfs⟩
    · exact List.forall_mem_cons.mpr ⟨hclause, hhung⟩
    · rw [orderedAll, hordered, hordered', Bool.and_self]
    · simp [elseLast, helse, hlast]
  · rw [allTerminated, Bool.and_eq_true] at hc
    obtain ⟨f, hf, hlabel, hordered, hstands⟩ := blockAt_sound ih hts hd hc.1
    have hclause : f.isClause = true := isClause_of_kind hlabel
    exact ⟨[f], by simpa using hf, by simpa using hclause, by simp [orderedAll, hordered],
      by simp [elseLast], hstands⟩

end Shorter

private theorem readsSound (i : Nat) (ts : List Token) (hts : s.Tail i ts) : ReadsSound s i ts := by
  induction hn : ts.length using Nat.strongRecOn generalizing i ts with
  | ind n ih =>
    subst hn
    replace ih (i : Nat) (m : List Token) (hm : m.length < ts.length) (hts : s.Tail i m) :
        ReadsSound s i m := ih _ hm i m hts rfl
    exact { statement := statement_sound ih hts, body := body_sound ih hts, chain := chain_sound ih hts }

/-- What is read from a list of tokens in which every leaf ends with `;` stands for sound forms. -/
theorem statements_sound {cs : List Construct} (hts : s.Tail i ts)
    (h : statements s.tokens.length ts = .ok cs) (hc : allTerminated s cs = true) :
    ∃ fs, (∀ f ∈ fs, Sound f) ∧ (∀ f ∈ fs, f.isClause = false) ∧ orderedAll fs = true ∧
      ts.map Token.content = lexemesAll fs ∧ ∀ j, cs = constructsAll s i j fs := by
  induction hn : ts.length using Nat.strongRecOn generalizing i ts cs with
  | ind n ih =>
    subst hn
    obtain ⟨rfl, rfl⟩ | ⟨c, m, more, hstatement, hmore, rfl⟩ := statements_iff.mp h
    · exact ⟨[], by simp, by simp, rfl, rfl, fun _ => rfl⟩
    · rw [allTerminated_append, Bool.and_eq_true] at hc
      obtain ⟨fs, hfs, hplain, hordered, hstands⟩ :=
        (readsSound i ts hts).statement c m hstatement hc.1
      obtain ⟨gs, hgs, hplain', hordered', hlexemes, hconstructs⟩ :=
        ih _ hstatement.length_lt (hstands.tail hts) hmore hc.2 rfl
      obtain ⟨u, rfl, hu⟩ := hstands.passed
      refine ⟨fs ++ gs, ?_, ?_, ?_, ?_, fun j => ?_⟩
      · exact List.forall_mem_append.mpr ⟨hfs, hgs⟩
      · exact List.forall_mem_append.mpr ⟨hplain, hplain'⟩
      · rw [orderedAll_append, hordered, hordered', Bool.and_self]
      · rw [List.map_append, hu, hlexemes, lexemesAll_append]
      · rw [constructsAll_append, hstands.constructs j, ← hconstructs]

end Soundness

section Completeness

variable {ts q : List Token}

private theorem not_endsStatements_of_isKeyword {k : Option Keyword} {t : Token}
    (h : isKeyword k t = true) (hk : k ≠ some .otherwise) : endsStatements t = false := by
  have hkind : t.kind = .ident := by
    simp only [isKeyword, Bool.and_eq_true, beq_iff_eq] at h
    exact h.1
  rw [Bool.eq_false_iff]
  intro hne
  simp only [endsStatements, Bool.or_eq_true] at hne
  obtain hne | hne := hne
  · exact hk (eq_of_isKeyword h (isKeyword_of_isWord hne))
  · simp [Token.isPunct, hkind] at hne

private theorem not_endsStatements_of_opens {kind : NodeKind} {tag : String} (h : Opens kind tag ts q)
    (hkind : kind.isClause = false) : ts.head?.any endsStatements = false := by
  cases kind with
  | sub =>
    obtain ⟨m, ⟨t, rfl, ht⟩, -⟩ := h
    exact not_endsStatements_of_isKeyword ht (by decide)
  | funBlock =>
    obtain ⟨x, m, ⟨t, rfl, ht⟩, -⟩ := h
    exact not_endsStatements_of_isKeyword (Bool.and_eq_true_iff.mp ht).1 (by decide)
  | conditional =>
    obtain ⟨-, m, ⟨t, rfl, ht⟩, -⟩ := h
    exact not_endsStatements_of_isKeyword ht (by decide)
  | elseIf | otherwise => cases hkind
  | root | importDecl | exportDecl | variableDecl | externDecl | macroCall | directive | useDecl
  | funCall | methodReference | element => exact h.elim

/-- A form that is no clause starts like a statement. -/
theorem Sound.not_endsStatements {f : Form} (h : Sound f) (hc : f.isClause = false) {u r : List Token}
    (hu : u.map Token.content = f.lexemes) : (u ++ r).head?.any endsStatements = false := by
  cases h with
  | stray =>
    obtain ⟨t, v, rfl, ht, -⟩ := List.map_eq_cons_iff.mp hu
    have hk : t.kind = .punct := congrArg Prod.fst ht
    have hl : t.lexeme = ";" := congrArg Prod.snd ht
    simp [endsStatements, Token.isWord, Token.isPunct, hk, hl]
  | leaf kind tag first x ls ms split reads =>
    rw [Form.lexemes, split] at hu
    obtain ⟨v, w, rfl, hv, hw⟩ := List.map_eq_append_iff.mp hu
    obtain ⟨t, w, rfl, ht, hnil⟩ := List.map_eq_cons_iff.mp hw
    obtain rfl : w = [] := by simpa using hnil
    have hbody := reads v (t :: r) hv (congrArg some ht)
    have hleaf : LeafAt 0 kind (v ++ t :: r) _ _ := ⟨tag, first, _, hbody, rfl, rfl⟩
    rw [List.append_assoc]
    exact not_endsStatements_of_statement hleaf.gives
  | block kind tag header body clauses reads =>
    obtain ⟨v, w, rfl, hv, hw⟩ := List.map_eq_append_iff.mp hu
    obtain ⟨t, w, rfl, ht, -⟩ := List.map_eq_cons_iff.mp hw
    have hopens := reads v (t :: (w ++ r)) hv (congrArg some ht)
    rw [List.append_assoc]
    exact not_endsStatements_of_opens hopens hc

private theorem not_else_of_not_endsStatements (h : ts.head?.any endsStatements = false) :
    ts.head?.any (·.isWord "else") = false := by
  cases ts with
  | nil => rfl
  | cons t r => exact (Bool.or_eq_false_iff.mp h).1

private theorem not_closing_of_not_endsStatements (h : ts.head?.any endsStatements = false) :
    startsWith "\x7d" ts = false := by
  cases ts with
  | nil => rfl
  | cons t r => exact (Bool.or_eq_false_iff.mp h).2

private theorem not_else_of_plain {fs : List Form} (hsound : ∀ f ∈ fs, Sound f)
    (hplain : ∀ f ∈ fs, f.isClause = false) {u r : List Token}
    (hu : u.map Token.content = lexemesAll fs) (hr : r.head?.any (·.isWord "else") = false) :
    (u ++ r).head?.any (·.isWord "else") = false := by
  cases fs with
  | nil =>
    obtain rfl : u = [] := by simpa using hu
    exact hr
  | cons f fs =>
    obtain ⟨v, w, rfl, hv, hw⟩ := List.map_eq_append_iff.mp hu
    rw [List.append_assoc]
    exact not_else_of_not_endsStatements
      ((hsound f List.mem_cons_self).not_endsStatements (hplain f List.mem_cons_self) hv)

/-- The form is read wherever its lexemes stand. -/
private structure ReadBack (f : Form) : Prop where
  statement (hf : f.isClause = false) (s : Source) (i : Nat) (u r : List Token)
    (hts : s.Tail i (u ++ r)) (hu : u.map Token.content = f.lexemes)
    (hr : r.head?.any (·.isWord "else") = false) :
    ∃ c, Gives (statement s.tokens.length (u ++ r)) c r ∧ ∀ j, c.toList = f.constructs s i j
  clause (hf : f.isClause = true) (s : Source) (i : Nat) (u r : List Token)
    (hts : s.Tail i (u ++ r)) (hu : u.map Token.content = f.lexemes) :
    ∃ kind c, BlockAt s.tokens.length kind (u ++ r) c r ∧ f.label?.map Label.kind = some kind ∧
      ∀ j, [c] = f.constructs s i j

/-- The statements of a body are read up to its closing brace. -/
private theorem body_readBack {fs : List Form} (hsound : ∀ f ∈ fs, Sound f)
    (hplain : ∀ f ∈ fs, f.isClause = false) (hread : ∀ f ∈ fs, ReadBack f) {s : Source} {i : Nat}
    {u r : List Token} {t : Token} (hts : s.Tail i (u ++ t :: r))
    (hu : u.map Token.content = lexemesAll fs) (ht : t.content = closingBrace) (j : Nat) :
    Gives (blockRest s.tokens.length (u ++ t :: r)) (i + u.length, constructsAll s i j fs) r := by
  have hkind : t.kind = .punct := congrArg Prod.fst ht
  induction fs generalizing i j u with
  | nil =>
    obtain rfl : u = [] := by simpa using hu
    rw [List.nil_append] at hts ⊢
    refine gives_blockRest.mpr (.inl ⟨⟨t, rfl, isPunct_of_content ht⟩, ?_, rfl⟩)
    rw [hts.position]
    rfl
  | cons f fs ih =>
    obtain ⟨v, w, rfl, hv, hw⟩ := List.map_eq_append_iff.mp hu
    rw [List.append_assoc] at hts ⊢
    rw [List.forall_mem_cons] at hsound hplain hread
    have hend : (t :: r).head?.any (·.isWord "else") = false := by simp [Token.isWord, hkind]
    have hnext := not_else_of_plain hsound.2 hplain.2 hw hend
    obtain ⟨c, hc, hconstructs⟩ := hread.1.statement hplain.1 s i v _ hts hv hnext
    have hmore := ih hsound.2 hplain.2 hread.2 hts.right hw (j + f.weight)
    rw [Nat.add_assoc, ← List.length_append] at hmore
    have hclosing := not_closing_of_not_endsStatements (not_endsStatements_of_statement hc)
    refine gives_blockRest.mpr (.inr ⟨hclosing, c, _, _, hc, hmore, ?_⟩)
    rw [constructsAll, hconstructs j, ← hv, List.length_map]

private theorem chain_readBack {fs : List Form} (hhung : ∀ f ∈ fs, f.isClause = true)
    (hread : ∀ f ∈ fs, ReadBack f) (hlast : elseLast fs = true) {s : Source} {i : Nat}
    {u r : List Token} (hts : s.Tail i (u ++ r)) (hu : u.map Token.content = lexemesAll fs)
    (hr : r.head?.any (·.isWord "else") = false) (j : Nat) :
    GivesAny (clauses s.tokens.length (u ++ r)) (constructsAll s i j fs) r := by
  induction fs generalizing i j u with
  | nil =>
    obtain rfl : u = [] := by simpa using hu
    exact gives_clauses.mpr (.inl ⟨hr, rfl, rfl⟩)
  | cons f fs ih =>
    obtain ⟨v, w, rfl, hv, hw⟩ := List.map_eq_append_iff.mp hu
    rw [List.append_assoc] at hts ⊢
    rw [List.forall_mem_cons] at hhung hread
    rw [elseLast, Bool.and_eq_true] at hlast
    obtain ⟨kind, c, hc, hlabel, hconstructs⟩ := hread.1.clause hhung.1 s i v _ hts hv
    have hmore := ih hhung.2 hread.2 hlast.2 hts.right hw (j + f.weight)
    rw [constructsAll, ← hconstructs j, ← hv, List.length_map]
    have hclause : kind.isClause = true := by rw [← isClause_of_kind hlabel, hhung.1]
    cases kind with
    | elseIf => exact gives_clauses.mpr (.inr (.inl ⟨c, _, _, hc, hmore, rfl⟩))
    | otherwise =>
      have helse : f.isElse = true := isElse_of_kind hlabel
      obtain rfl : fs = [] := by simpa [helse] using hlast.1
      obtain rfl : w = [] := by simpa using hw
      exact gives_clauses.mpr (.inr (.inr ⟨c, hc, rfl⟩))
    | root | importDecl | exportDecl | sub | funBlock | variableDecl | externDecl | macroCall
    | directive | useDecl | funCall | methodReference | conditional | element => cases hclause

section Blocks

variable {kind : NodeKind} {tag : String} {header : List Lexeme} {body clauses : List Form}
  (hreads : ∀ u r, u.map Token.content = header → headContent r = some openingBrace →
    Opens kind tag (u ++ r) r)
  (hsound : ∀ f ∈ body, Sound f) (hplain : ∀ f ∈ body, f.isClause = false)
  (hread : ∀ f ∈ body, ReadBack f) {s : Source} {i : Nat} {u r : List Token} (hts : s.Tail i (u ++ r))

include hreads hsound hplain hread hts

private theorem block_readBack (hu : u.map Token.content = header ++ openingBrace :: (lexemesAll body ++ [closingBrace])) :
    ∃ k, Opens kind tag (u ++ r) k ∧ Gives (block s.tokens.length k)
      (⟨i + header.length, i + header.length + 1 + (lexemesAll body).length⟩,
        constructsAll s (i + header.length + 1) 0 body) r := by
  obtain ⟨v, v', rfl, hv, hv'⟩ := List.map_eq_append_iff.mp hu
  obtain ⟨t, w', rfl, ht, hw'⟩ := List.map_eq_cons_iff.mp hv'
  obtain ⟨w, x, rfl, hw, hx⟩ := List.map_eq_append_iff.mp hw'
  obtain ⟨t', x', rfl, ht', hnil⟩ := List.map_eq_cons_iff.mp hx
  obtain rfl : x' = [] := by simpa using hnil
  have hts' : s.Tail i (v ++ t :: (w ++ t' :: r)) := by simpa using hts
  have hrest := body_readBack hsound hplain hread hts'.right.tail hw ht' 0
  have hopening : Leaves (expect "\x7b" (t :: (w ++ t' :: r))) (w ++ t' :: r) :=
    leaves_expectSign.mpr ⟨t, rfl, isPunct_of_content ht⟩
  have hblock := gives_block.mpr ⟨_, hopening, _, hrest, rfl⟩
  rw [hts'.right.position] at hblock
  have hlen : header.length = v.length := by rw [← hv, List.length_map]
  have hlen' : (lexemesAll body).length = w.length := by rw [← hw, List.length_map]
  refine ⟨t :: (w ++ t' :: r), ?_, by rw [hlen, hlen']; exact hblock⟩
  have := hreads v (t :: (w ++ t' :: r)) hv (congrArg some ht)
  simpa using this

private theorem blockAt_readBack (hu : u.map Token.content = (Form.block ⟨kind, fun _ => tag, none⟩ header openingBrace body
      closingBrace [] []).lexemes) :
    ∃ c, BlockAt s.tokens.length kind (u ++ r) c r ∧ ∀ j, [c] = (Form.block ⟨kind, fun _ => tag, none⟩
      header openingBrace body closingBrace [] []).constructs s i j := by
  obtain ⟨k, hopens, hblock⟩ := block_readBack hreads hsound hplain hread hts hu
  refine ⟨_, ⟨tag, k, _, _, hopens, hblock, rfl⟩, fun j => ?_⟩
  have hlen : u.length = header.length + 1 + (lexemesAll body).length + 1 := by
    rw [← List.length_map, hu]
    simp only [Form.lexemes, lexemesAll_nil, List.append_nil, List.length_append, List.length_cons,
      List.length_nil]
    omega
  rw [Stands.extent hts rfl, lineOf, hts.line, hlen]
  simp [constructsAll, Form.constructs, Nat.add_assoc]

private theorem conditionalAt_readBack (hkind : kind = .conditional) (hhung : ∀ f ∈ clauses, f.isClause = true)
    (hread' : ∀ f ∈ clauses, ReadBack f) (hlast : elseLast clauses = true)
    (hu : u.map Token.content = (Form.block ⟨kind, fun _ => tag, none⟩ header openingBrace body
      closingBrace clauses []).lexemes) (hr : r.head?.any (·.isWord "else") = false) :
    ∃ c, ConditionalAt s.tokens.length (u ++ r) c r ∧ ∀ j, [c] = (Form.block ⟨kind, fun _ => tag, none⟩
      header openingBrace body closingBrace clauses []).constructs s i j := by
  subst hkind
  have hsplit : header ++ openingBrace :: (lexemesAll body ++ closingBrace :: (lexemesAll clauses ++ [])) =
      (header ++ openingBrace :: (lexemesAll body ++ [closingBrace])) ++ lexemesAll clauses := by
    simp
  rw [Form.lexemes, hsplit] at hu
  obtain ⟨v, w, rfl, hv, hw⟩ := List.map_eq_append_iff.mp hu
  rw [List.append_assoc] at hts ⊢
  obtain ⟨k, hopens, hblock⟩ := block_readBack hreads hsound hplain hread hts hv
  have hmore := chain_readBack hhung hread' hlast hts.right hw hr (labelsOf body).length
  obtain rfl : tag = "if" := hopens.1
  refine ⟨_, ⟨k, _, _, _, _, hopens, hblock, hmore, rfl⟩, fun j => ?_⟩
  have hlen : v.length = header.length + 1 + (lexemesAll body).length + 1 := by
    rw [← List.length_map, hv]
    simp only [List.length_append, List.length_cons, List.length_nil]
    omega
  have hlen' : w.length = (lexemesAll clauses).length := by rw [← hw, List.length_map]
  rw [Stands.extent hts (List.append_assoc ..).symm, lineOf, hts.line, List.length_append, hlen, hlen']
  simp [Form.constructs, Nat.add_assoc]

end Blocks

private theorem leaf_readBack {kind : NodeKind} {tag : String} {first : Option String} {x : Lexeme}
    {ls ms : List Lexeme} (split : x :: ls = ms ++ [semicolon])
    (reads : ∀ u r, u.map Token.content = ms → headContent r = some semicolon →
      LeafBody kind tag first (u ++ r) r) {s : Source} {i : Nat} {u r : List Token} (hts : s.Tail i (u ++ r))
    (hu : u.map Token.content = x :: ls) :
    ∃ c, LeafAt s.tokens.length kind (u ++ r) c r ∧
      ∀ j, [c] = (Form.leaf ⟨kind, fun _ => tag, first⟩ x ls).constructs s i j := by
  rw [split] at hu
  obtain ⟨v, w, rfl, hv, hw⟩ := List.map_eq_append_iff.mp hu
  obtain ⟨t, w', rfl, ht, hnil⟩ := List.map_eq_cons_iff.mp hw
  obtain rfl : w' = [] := by simpa using hnil
  have hts' : s.Tail i (v ++ t :: r) := by simpa using hts
  have hbody := reads v (t :: r) hv (congrArg some ht)
  have hskip : (skip ";" (t :: r)).val = r := by rw [skip, eat_of_isPunct (isPunct_of_content ht)]; rfl
  have hleaf : LeafAt s.tokens.length kind (v ++ t :: r) _ r := ⟨tag, first, _, hbody, hskip, rfl⟩
  have hsplit : v ++ t :: r = (v ++ [t]) ++ r := by simp
  rw [← hsplit]
  refine ⟨_, hleaf, fun j => ?_⟩
  have hlen : (v ++ [t]).length = 1 + ls.length := by
    rw [← List.length_map (f := Token.content), hu, ← split, List.length_cons, Nat.add_comm]
  rw [Script.leaf, Stands.extent hts' hsplit, lineOf, hts'.line, hlen, ← Nat.add_assoc]
  rfl

/-- A leaf is no clause. -/
private theorem not_isClause_of_leafBody {kind : NodeKind} {tag : String} {first : Option String} {x : Lexeme}
    {ls ms : List Lexeme} (reads : ∀ u r, u.map Token.content = ms → headContent r = some semicolon →
      LeafBody kind tag first (u ++ r) r) : (Form.leaf ⟨kind, fun _ => tag, first⟩ x ls).isClause = false := by
  have hbody := reads (ms.map someToken) [someToken semicolon] (content_someTokens ms) rfl
  exact hbody.not_clause

theorem readBack {f : Form} (h : Sound f) (ho : f.ordered = true) : ReadBack f := by
  induction h with
  | stray =>
    refine ⟨fun _ s i u r hts hu hr => ?_, fun hf => absurd hf (by decide)⟩
    obtain ⟨t, v, rfl, ht, hnil⟩ := List.map_eq_cons_iff.mp hu
    obtain rfl : v = [] := by simpa using hnil
    exact ⟨none, gives_statement.mpr (.inl ⟨rfl, t, rfl, isPunct_of_content ht⟩), fun _ => rfl⟩
  | leaf kind tag first x ls ms split reads =>
    refine ⟨fun hf s i u r hts hu hr => ?_, fun hf => ?_⟩
    · obtain ⟨c, hc, hconstructs⟩ := leaf_readBack split reads hts hu
      exact ⟨some c, hc.gives, hconstructs⟩
    · rw [not_isClause_of_leafBody reads] at hf
      cases hf
  | block kind tag header body clauses reads statements plain chain hung conditional ih ih' =>
    rw [Form.ordered, Bool.and_eq_true, Bool.and_eq_true] at ho
    have hread (f : Form) (hf : f ∈ body) : ReadBack f := ih f hf (orderedAll_iff.mp ho.1.1 f hf)
    have hread' (f : Form) (hf : f ∈ clauses) : ReadBack f := ih' f hf (orderedAll_iff.mp ho.1.2 f hf)
    refine ⟨fun hf s i u r hts hu hr => ?_, fun hf s i u r hts hu => ?_⟩
    · by_cases hkind : kind = .conditional
      · obtain ⟨c, hc, hconstructs⟩ :=
          conditionalAt_readBack reads statements plain hread hts hkind hung hread' ho.2 hu hr
        exact ⟨some c, hc.gives, hconstructs⟩
      · obtain rfl : clauses = [] := Classical.byContradiction fun hne => hkind (conditional hne)
        obtain ⟨c, hc, hconstructs⟩ := blockAt_readBack reads statements plain hread hts hu
        have hkinds : kind = .sub ∨ kind = .funBlock := by
          obtain ⟨_, _, _, _, hopens, -⟩ := hc
          cases kind with
          | sub => exact .inl rfl
          | funBlock => exact .inr rfl
          | conditional => exact absurd rfl hkind
          | elseIf | otherwise => cases hf
          | root | importDecl | exportDecl | variableDecl | externDecl | macroCall | directive
          | useDecl | funCall | methodReference | element => exact hopens.elim
        exact ⟨some c, hc.gives hkinds, hconstructs⟩
    · obtain rfl : clauses = [] := by
        refine Classical.byContradiction fun hne => ?_
        rw [conditional hne] at hf
        cases hf
      obtain ⟨c, hc, hconstructs⟩ := blockAt_readBack reads statements plain hread hts hu
      exact ⟨kind, c, hc, rfl, hconstructs⟩

/-- Sound forms in a row are read back as their constructs. -/
theorem statements_readBack {fs : List Form} (hsound : ∀ f ∈ fs, Sound f)
    (hplain : ∀ f ∈ fs, f.isClause = false) (hordered : orderedAll fs = true) {s : Source} {i : Nat}
    (hts : s.Tail i ts) (hu : ts.map Token.content = lexemesAll fs) (j : Nat) :
    statements s.tokens.length ts = .ok (constructsAll s i j fs) := by
  induction fs generalizing i j ts with
  | nil =>
    obtain rfl : ts = [] := by simpa using hu
    exact statements_iff.mpr (.inl ⟨rfl, rfl⟩)
  | cons f fs ih =>
    obtain ⟨v, w, rfl, hv, hw⟩ := List.map_eq_append_iff.mp hu
    rw [List.forall_mem_cons] at hsound hplain
    rw [orderedAll, Bool.and_eq_true] at hordered
    have hnext := not_else_of_plain (r := []) hsound.2 hplain.2 hw rfl
    rw [List.append_nil] at hnext
    obtain ⟨c, hc, hconstructs⟩ :=
      (readBack hsound.1 hordered.1).statement hplain.1 s i v w hts hv hnext
    have hmore := ih hsound.2 hplain.2 hordered.2 hts.right hw (j + f.weight)
    refine statements_iff.mpr (.inr ⟨c, w, _, hc, hmore, ?_⟩)
    rw [constructsAll, hconstructs j, ← hv, List.length_map]

end Completeness

section Disorder

variable {ts q : List Token}

/-- The form is read nowhere, or what is left behind it starts with an `else`. -/
private structure Stuck (f : Form) : Prop where
  statement (hf : f.isClause = false) (s : Source) (i : Nat) (u r : List Token)
    (hts : s.Tail i (u ++ r)) (hu : u.map Token.content = f.lexemes) (c : Option Construct)
    (q : List Token) (h : Gives (statement s.tokens.length (u ++ r)) c q) :
    q.head?.any (·.isWord "else") = true
  clause (hf : f.isClause = true) (s : Source) (i : Nat) (u r : List Token)
    (hts : s.Tail i (u ++ r)) (hu : u.map Token.content = f.lexemes) (kind : NodeKind) (c : Construct)
    (q : List Token) : ¬ BlockAt s.tokens.length kind (u ++ r) c q

private theorem no_statement_of_else {n : Nat} {c : Option Construct}
    (h : ts.head?.any (·.isWord "else") = true) : ¬ Gives (statement n ts) c q := by
  intro hc
  have := not_else_of_not_endsStatements (not_endsStatements_of_statement hc)
  rw [h] at this
  cases this

private theorem no_body_of_else {n : Nat} {p : Nat × List Construct}
    (h : ts.head?.any (·.isWord "else") = true) : ¬ Gives (blockRest n ts) p q := by
  intro hrest
  obtain ⟨⟨t, rfl, ht⟩, -⟩ | ⟨-, c, m, more, hc, -⟩ := gives_blockRest.mp hrest
  · simp only [List.head?_cons, Option.any_some, Token.isWord, Token.isPunct, Bool.and_eq_true,
      beq_iff_eq] at h ht
    rw [ht.1] at h
    cases h.1
  · exact no_statement_of_else h hc

private theorem body_stuck {fs : List Form} (hsound : ∀ f ∈ fs, Sound f)
    (hplain : ∀ f ∈ fs, f.isClause = false) (hstuck : ∀ f ∈ fs, f.ordered = false → Stuck f)
    (hdisorder : orderedAll fs = false) {s : Source} {i : Nat} {u r q : List Token} {t : Token}
    (hts : s.Tail i (u ++ t :: r)) (hu : u.map Token.content = lexemesAll fs)
    (ht : t.content = closingBrace) {p : Nat × List Construct} :
    ¬ Gives (blockRest s.tokens.length (u ++ t :: r)) p q := by
  have hkind : t.kind = .punct := congrArg Prod.fst ht
  induction fs generalizing i u p with
  | nil => cases hdisorder
  | cons f fs ih =>
    obtain ⟨v, w, rfl, hv, hw⟩ := List.map_eq_append_iff.mp hu
    rw [List.append_assoc] at hts ⊢
    rw [List.forall_mem_cons] at hsound hplain hstuck
    intro h
    have hfirst := hsound.1.not_endsStatements hplain.1 (r := w ++ t :: r) hv
    obtain ⟨⟨t', heq, ht'⟩, -⟩ | ⟨-, c, m, more, hc, hmore, -⟩ := gives_blockRest.mp h
    · have := not_closing_of_not_endsStatements hfirst
      simp [heq, startsWith, ht'] at this
    · cases hf : f.ordered with
      | true =>
        have hend : (t :: r).head?.any (·.isWord "else") = false := by simp [Token.isWord, hkind]
        have hnext := not_else_of_plain hsound.2 hplain.2 hw hend
        obtain ⟨c', hc', -⟩ := (readBack hsound.1 hf).statement hplain.1 s i v _ hts hv hnext
        obtain ⟨-, rfl⟩ := hc.unique hc'
        have hdisorder' : orderedAll fs = false := by simpa [orderedAll, hf] using hdisorder
        exact ih hsound.2 hplain.2 hstuck.2 hdisorder' hts.right hw hmore
      | false =>
        exact no_body_of_else ((hstuck.1 hf).statement hplain.1 s i v _ hts hv c m hc) hmore

private theorem else_of_opens {kind : NodeKind} {tag : String} (h : Opens kind tag ts q)
    (hkind : kind.isClause = true) : ts.head?.any (·.isWord "else") = true := by
  cases kind with
  | elseIf | otherwise =>
    obtain ⟨-, m, ⟨t, rfl, ht⟩, -⟩ := h
    exact ht
  | root | importDecl | exportDecl | sub | funBlock | variableDecl | externDecl | macroCall
  | directive | useDecl | funCall | methodReference | conditional | element => cases hkind

/-- A clause starts with `else`. -/
private theorem Sound.else_of_isClause {f : Form} (h : Sound f) (hc : f.isClause = true)
    {u r : List Token} (hu : u.map Token.content = f.lexemes) :
    (u ++ r).head?.any (·.isWord "else") = true := by
  cases h with
  | stray => cases hc
  | leaf kind tag first x ls ms split reads =>
    rw [not_isClause_of_leafBody reads] at hc
    cases hc
  | block kind tag header body clauses reads =>
    obtain ⟨v, w, rfl, hv, hw⟩ := List.map_eq_append_iff.mp hu
    obtain ⟨t, w, rfl, ht, -⟩ := List.map_eq_cons_iff.mp hw
    have hopens := reads v (t :: (w ++ r)) hv (congrArg some ht)
    rw [List.append_assoc]
    exact else_of_opens hopens hc

private theorem chain_stuck {fs : List Form} (hsound : ∀ f ∈ fs, Sound f)
    (hhung : ∀ f ∈ fs, f.isClause = true) (hstuck : ∀ f ∈ fs, f.ordered = false → Stuck f)
    (hdisorder : (orderedAll fs && elseLast fs) = false) {s : Source} {i : Nat} {u r q : List Token}
    (hts : s.Tail i (u ++ r)) (hu : u.map Token.content = lexemesAll fs) {cs : List Construct}
    (h : GivesAny (clauses s.tokens.length (u ++ r)) cs q) :
    q.head?.any (·.isWord "else") = true := by
  induction fs generalizing i u cs with
  | nil => cases hdisorder
  | cons f fs ih =>
    obtain ⟨v, w, rfl, hv, hw⟩ := List.map_eq_append_iff.mp hu
    rw [List.append_assoc] at hts h
    rw [List.forall_mem_cons] at hsound hhung hstuck
    have hfirst := hsound.1.else_of_isClause hhung.1 (r := w ++ r) hv
    cases hf : f.ordered with
    | false =>
      have hno := (hstuck.1 hf).clause hhung.1 s i v _ hts hv
      obtain ⟨hne, -⟩ | ⟨d, m, more, hd, -⟩ | ⟨d, hd, -⟩ := gives_clauses.mp h
      · rw [hfirst] at hne
        cases hne
      · exact absurd hd (hno _ _ _)
      · exact absurd hd (hno _ _ _)
    | true =>
      obtain ⟨kind, c, hc, hlabel, -⟩ := (readBack hsound.1 hf).clause hhung.1 s i v _ hts hv
      obtain ⟨hne, -⟩ | ⟨d, m, more, hd, hmore, -⟩ | ⟨d, hd, -⟩ := gives_clauses.mp h
      · rw [hfirst] at hne
        cases hne
      · obtain ⟨rfl, rfl⟩ := hd.unique hc
        have helse : f.isElse = false := isElse_of_kind hlabel
        have hdisorder' : (orderedAll fs && elseLast fs) = false := by
          simpa [orderedAll, elseLast, hf, helse] using hdisorder
        exact ih hsound.2 hhung.2 hstuck.2 hdisorder' hts.right hw hmore
      · obtain ⟨rfl, rfl⟩ := hd.unique hc
        cases fs with
        | nil => simp [orderedAll, elseLast, hf] at hdisorder
        | cons g fs =>
          obtain ⟨v', w', rfl, hv', -⟩ := List.map_eq_append_iff.mp hw
          rw [List.append_assoc]
          exact (hsound.2 g List.mem_cons_self).else_of_isClause (hhung.2 g List.mem_cons_self) hv'

/-- A body that is read has its forms in order and ends at its own closing brace. -/
private theorem body_ordered {fs : List Form} (hsound : ∀ f ∈ fs, Sound f)
    (hplain : ∀ f ∈ fs, f.isClause = false) (hstuck : ∀ f ∈ fs, f.ordered = false → Stuck f)
    {s : Source} {i : Nat} {u r q : List Token} {t t' : Token} (hts : s.Tail i (u ++ t' :: r))
    (hu : u.map Token.content = lexemesAll fs) (ht' : t'.content = closingBrace) {b : Body}
    (h : Gives (block s.tokens.length (t :: (u ++ t' :: r))) b q) : orderedAll fs = true ∧ q = r := by
  obtain ⟨braces, body⟩ := b
  obtain ⟨m, hm, closing, hrest, -⟩ := gives_block.mp h
  obtain ⟨_, heq, -⟩ := leaves_expectSign.mp hm
  cases heq
  cases ho : orderedAll fs with
  | false => exact absurd hrest (body_stuck hsound hplain hstuck ho hts hu ht')
  | true =>
    have hread (f : Form) (hf : f ∈ fs) : ReadBack f := readBack (hsound f hf) (orderedAll_iff.mp ho f hf)
    exact ⟨rfl, (hrest.unique (body_readBack hsound hplain hread hts hu ht' 0)).2⟩

private theorem stuck {f : Form} (h : Sound f) (hf : f.ordered = false) : Stuck f := by
  induction h with
  | stray | leaf => cases hf
  | block kind tag header body clauses reads statements plain chain hung conditional ih ih' =>
    have hpieces {u r : List Token} (hu : u.map Token.content = header ++ openingBrace ::
        (lexemesAll body ++ closingBrace :: (lexemesAll clauses ++ []))) :
        ∃ v t w t' x, u = v ++ t :: (w ++ t' :: x) ∧ w.map Token.content = lexemesAll body ∧
          t.content = openingBrace ∧ t'.content = closingBrace ∧
          x.map Token.content = lexemesAll clauses ∧
          Opens kind tag (u ++ r) (t :: (w ++ t' :: (x ++ r))) := by
      obtain ⟨v, v', rfl, hv, hv'⟩ := List.map_eq_append_iff.mp hu
      obtain ⟨t, w', rfl, ht, hw'⟩ := List.map_eq_cons_iff.mp hv'
      obtain ⟨w, x', rfl, hw, hx'⟩ := List.map_eq_append_iff.mp hw'
      obtain ⟨t', x, rfl, ht', hx⟩ := List.map_eq_cons_iff.mp hx'
      rw [List.append_nil] at hx
      have hopens := reads v (t :: (w ++ t' :: (x ++ r))) hv (congrArg some ht)
      exact ⟨v, t, w, t', x, rfl, hw, ht, ht', hx, by simpa using hopens⟩
    have hpieces' {s : Source} {i : Nat} {v w x r : List Token} {t t' : Token}
        (hts : s.Tail i (v ++ t :: (w ++ t' :: x) ++ r)) :
        s.Tail (i + v.length + 1) (w ++ t' :: (x ++ r)) := by
      have hts' : s.Tail i (v ++ t :: (w ++ t' :: (x ++ r))) := by simpa using hts
      exact hts'.right.tail
    refine ⟨fun hc s i u r hts hu c q h => ?_, fun hc s i u r hts hu kind' c q h => ?_⟩
    · obtain ⟨v, t, w, t', x, rfl, hw, ht, ht', hx, hopens⟩ := hpieces (r := r) hu
      have hk : startsWith "\x7b" (t :: (w ++ t' :: (x ++ r))) = true :=
        (isPunct_of_content ht : t.isPunct "\x7b" = true)
      obtain ⟨d, rfl, ⟨rfl, hcond⟩ | ⟨hne, hblock⟩⟩ := statement_of_opens hopens hk h
      · obtain ⟨k', braces, body', m, more, hopens', hb, hmore, -⟩ := hcond
        obtain ⟨-, -, rfl⟩ := hopens.unique hopens'
        obtain ⟨ho, rfl⟩ := body_ordered statements plain ih (hpieces' hts) hw ht' hb
        have hdisorder : (orderedAll clauses && elseLast clauses) = false := by
          simpa [Form.ordered, ho] using hf
        refine chain_stuck chain hung ih' hdisorder (i := i + v.length + 1 + w.length + 1) ?_ hx hmore
        exact (hpieces' hts).right.tail
      · obtain rfl : clauses = [] := Classical.byContradiction fun h => hne (conditional h)
        obtain ⟨_, k', _, _, hopens', hb, -⟩ := hblock
        obtain ⟨-, -, rfl⟩ := hopens.unique hopens'
        obtain ⟨ho, -⟩ := body_ordered statements plain ih (hpieces' hts) hw ht' hb
        simp [Form.ordered, ho, orderedAll, elseLast] at hf
    · obtain ⟨v, t, w, t', x, rfl, hw, ht, ht', hx, hopens⟩ := hpieces (r := r) hu
      obtain rfl : clauses = [] := by
        refine Classical.byContradiction fun hne => ?_
        rw [conditional hne] at hc
        cases hc
      obtain ⟨_, k', _, _, hopens', hb, -⟩ := h
      obtain ⟨-, -, rfl⟩ := hopens.unique hopens'
      obtain ⟨ho, -⟩ := body_ordered statements plain ih (hpieces' hts) hw ht' hb
      simp [Form.ordered, ho, orderedAll, elseLast] at hf

/-- Sound forms are read back only if no clause follows an `else`. -/
theorem ordered_of_statements {fs : List Form} (hsound : ∀ f ∈ fs, Sound f)
    (hplain : ∀ f ∈ fs, f.isClause = false) {s : Source} {i : Nat} (hts : s.Tail i ts)
    (hu : ts.map Token.content = lexemesAll fs) {cs : List Construct}
    (h : statements s.tokens.length ts = .ok cs) : orderedAll fs = true := by
  induction fs generalizing i ts cs with
  | nil => rfl
  | cons f fs ih =>
    obtain ⟨v, w, rfl, hv, hw⟩ := List.map_eq_append_iff.mp hu
    rw [List.forall_mem_cons] at hsound hplain
    obtain ⟨hnil, -⟩ | ⟨c, m, more, hc, hmore, -⟩ := statements_iff.mp h
    · have hlen := congrArg List.length hv
      have := f.length_pos
      rw [(List.append_eq_nil_iff.mp hnil).1, List.map_nil, List.length_nil] at hlen
      omega
    · cases hf : f.ordered with
      | true =>
        have hnext := not_else_of_plain (r := []) hsound.2 hplain.2 hw rfl
        rw [List.append_nil] at hnext
        obtain ⟨c', hc', -⟩ := (readBack hsound.1 hf).statement hplain.1 s i v w hts hv hnext
        obtain ⟨-, rfl⟩ := hc.unique hc'
        rw [orderedAll, hf, ih hsound.2 hplain.2 hts.right hw hmore, Bool.and_self]
      | false =>
        have helse := (stuck hsound.1 hf).statement hplain.1 s i v w hts hv c m hc
        obtain ⟨rfl, -⟩ | ⟨c', m', _, hc', -⟩ := statements_iff.mp hmore
        · cases helse
        · exact absurd hc' (no_statement_of_else helse)

end Disorder

section Labels

/-- A leaf has one label. -/
theorem Sound.leaf_label {l l' : Label} {x : Lexeme} {ls : List Lexeme} (h : Sound (.leaf l x ls))
    (h' : Sound (.leaf l' x ls)) : l = l' := by
  cases h with
  | leaf kind tag first _ _ ms split reads =>
  cases h' with
  | leaf kind' tag' first' _ _ ms' split' reads' =>
    obtain rfl : ms = ms' := by
      rw [split] at split'
      exact List.append_cancel_right split'
    have hbody := reads (ms.map someToken) [someToken semicolon] (content_someTokens ms) rfl
    have hbody' := reads' (ms.map someToken) [someToken semicolon] (content_someTokens ms) rfl
    have hleaf : LeafAt 0 kind _ _ _ := ⟨tag, first, _, hbody, rfl, rfl⟩
    have hleaf' : LeafAt 0 kind' _ _ _ := ⟨tag', first', _, hbody', rfl, rfl⟩
    have hgives := hleaf.gives
    have hgives' := hleaf'.gives
    have heq := (hgives.unique hgives').1
    rw [Option.some.injEq, Script.leaf, Script.leaf, Construct.leaf.injEq] at heq
    obtain ⟨rfl, rfl, -, -, rfl⟩ := heq
    rfl

/-- A header has one label. -/
theorem Sound.block_label {l l' : Label} {header : List Lexeme}
    {opening opening' closing closing' : Lexeme} {body body' clauses clauses' : List Form}
    {trail trail' : List Lexeme} (h : Sound (.block l header opening body closing clauses trail))
    (h' : Sound (.block l' header opening' body' closing' clauses' trail')) : l = l' := by
  cases h with
  | block kind tag _ _ _ reads =>
  cases h' with
  | block kind' tag' _ _ _ reads' =>
    have hheader := content_someTokens header
    have hopens := reads (header.map someToken) [someToken openingBrace] hheader rfl
    have hopens' := reads' (header.map someToken) [someToken openingBrace] hheader rfl
    obtain ⟨rfl, rfl, -⟩ := hopens.unique hopens'
    rfl

end Labels

end ModWeave.Script
