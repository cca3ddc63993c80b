import ModWeave.Proofs.Merge.Edits
import ModWeave.Proofs.Merge.Merged
import ModWeave.Proofs.Run.Ends
import ModWeave.Proofs.Run.Keeps

/-!
The fold of a file's copies: each is compared with what the copies before it gave, every record of that is
settled, by itself, by the run's default or by the operator, and the text with the changes is parsed again.
-/
namespace ModWeave

/-- The choice for a conflict about which no one has to be asked: its own, else the run's default. -/
def Conflict.automaticChoice? (c : Conflict) (settings : MergeSettings) (session : Session)
    (vanilla : Option Tree) : Option Choice :=
  c.triageChoice? settings vanilla <|> session.runDefault

theorem Conflict.settle_eq (c : Conflict) (settings : MergeSettings) (vanilla : Option Tree) :
    c.settle settings vanilla = get >>= fun s =>
      match c.automaticChoice? settings s.session vanilla with
      | some choice => pure (c.resolve choice, true)
      | none => c.putToOperator >>= fun c => pure (c, false) := by
  unfold settle automaticChoice?
  cases c.triageChoice? settings vanilla with
  | some choice => rfl
  | none =>
    refine bind_congr fun s => ?_
    unfold Session.adopt?
    cases s.session.runDefault <;> rfl

/-- The moment behind an answer. A choice for all conflicts is the run's default from then on. -/
def Moment.answered (t : Moment) (c : Conflict) (choice : Choice) : Moment :=
  ⟨{ t.progress with session := (t.progress.session.apply c choice).1 }, .asked c (.choose choice) :: t.past⟩

/-- Records settled in order, each with whether that went without asking. -/
inductive Settles (operator : Operator) (settings : MergeSettings) (vanilla : Option Tree) :
    Moment → List Conflict → List (Conflict × Bool) → Moment → Prop
  | nil {t : Moment} : Settles operator settings vanilla t [] [] t
  | automatic {t t' : Moment} {c : Conflict} {rest : List Conflict} {settled : List (Conflict × Bool)}
      {choice : Choice} (hchoice : c.automaticChoice? settings t.progress.session vanilla = some choice)
      (hrest : Settles operator settings vanilla t rest settled t') :
      Settles operator settings vanilla t (c :: rest) ((c.resolve choice, true) :: settled) t'
  | asked {t t' : Moment} {c : Conflict} {rest : List Conflict} {settled : List (Conflict × Bool)}
      {choice : Choice} (hnone : c.automaticChoice? settings t.progress.session vanilla = none)
      (hanswer : operator t.past c = .choose choice)
      (hrest : Settles operator settings vanilla (t.answered c choice) rest settled t') :
      Settles operator settings vanilla t (c :: rest) ((c.resolve choice, false) :: settled) t'

/-- A record of a comparison, and how it was settled. -/
structure Decision where
  record : Conflict
  /-- The game's own file, if there is one that can be used. -/
  vanilla : Option Tree
  choice : Choice
  /-- Whether that went without asking. -/
  automatic : Bool

namespace Decision

/-- The record with its choice. -/
def settled (x : Decision) : Conflict := x.record.resolve x.choice

def report (x : Decision) : ConflictReport := .ofConflict x.settled x.automatic

end Decision

/-- Why an answer is no choice, if it is none. -/
def Answer.failure? : Answer → Option FileFailure
  | choose _ => none
  | refuse reason => some (.refused reason)
  | abort => some .aborted

/-- Records settled in order, up to one for which the operator gives no choice. -/
inductive SettlesUntil (operator : Operator) (settings : MergeSettings) (vanilla : Option Tree) :
    Moment → List Conflict → List Decision → Option FileFailure → Moment → Prop
  | nil {t : Moment} : SettlesUntil operator settings vanilla t [] [] none t
  | automatic {t t' : Moment} {c : Conflict} {rest : List Conflict} {log : List Decision}
      {failure? : Option FileFailure} {choice : Choice}
      (hchoice : c.automaticChoice? settings t.progress.session vanilla = some choice)
      (hrest : SettlesUntil operator settings vanilla t rest log failure? t') :
      SettlesUntil operator settings vanilla t (c :: rest) (⟨c, vanilla, choice, true⟩ :: log) failure? t'
  | asked {t t' : Moment} {c : Conflict} {rest : List Conflict} {log : List Decision}
      {failure? : Option FileFailure} {choice : Choice}
      (hnone : c.automaticChoice? settings t.progress.session vanilla = none)
      (hanswer : operator t.past c = .choose choice)
      (hrest : SettlesUntil operator settings vanilla (t.answered c choice) rest log failure? t') :
      SettlesUntil operator settings vanilla t (c :: rest) (⟨c, vanilla, choice, false⟩ :: log) failure? t'
  | unanswered {t : Moment} {c : Conflict} {rest : List Conflict} {e : FileFailure}
      (hnone : c.automaticChoice? settings t.progress.session vanilla = none)
      (hanswer : (operator t.past c).failure? = some e) :
      SettlesUntil operator settings vanilla t (c :: rest) [] (some e)
        ⟨t.progress, .asked c (operator t.past c) :: t.past⟩

/-- Trees of further mods merged into what there is, in order. -/
inductive Folds (operator : Operator) (settings : MergeSettings) (file : String) (language : Language)
    (vanilla : Option Tree) : Moment → Merged → List (String × Tree) → Merged → Moment → Prop
  | nil {t : Moment} {so : Merged} : Folds operator settings file language vanilla t so [] so t
  | cons {t t₁ t' : Moment} {so merged : Merged} {source : String} {modded tree : Tree}
      {rest : List (String × Tree)} {changes : Changes} {settled : List (Conflict × Bool)} {text : List Char}
      (hdiff : diff ⟨file, so.label, source⟩ so.tree modded = some changes)
      (hsettles : Settles operator settings vanilla t changes.conflicts settled t₁)
      (hmade : materialize so.tree { changes with conflicts := settled.map Prod.fst } = .ok text)
      (hparse : language.parse text = .ok tree)
      (hrest : Folds operator settings file language vanilla t₁
        ⟨tree, s!"{so.label} + {source}",
          so.conflicts ++ settled.map fun (c, automatic) => .ofConflict c automatic⟩ rest merged t') :
      Folds operator settings file language vanilla t so ((source, modded) :: rest) merged t'

/-- Trees of further mods merged in as far as that goes: the records of all comparisons, and the result. -/
inductive MergesUntil (operator : Operator) (settings : MergeSettings) (file : String) (language : Language)
    (vanilla : Option Tree) : Moment → Merged → List (String × Tree) → List Decision →
      Except FileFailure (Except Unparsed Merged) → Moment → Prop
  | nil {t : Moment} {so : Merged} :
      MergesUntil operator settings file language vanilla t so [] [] (.ok (.ok so)) t
  | outOfRange {t : Moment} {so : Merged} {source : String} {modded : Tree} {rest : List (String × Tree)}
      (hdiff : diff ⟨file, so.label, source⟩ so.tree modded = none) :
      MergesUntil operator settings file language vanilla t so ((source, modded) :: rest) []
        (.error (.merge .outOfRange)) t
  | unanswered {t t' : Moment} {so : Merged} {source : String} {modded : Tree} {rest : List (String × Tree)}
      {changes : Changes} {log : List Decision} {e : FileFailure}
      (hdiff : diff ⟨file, so.label, source⟩ so.tree modded = some changes)
      (hsettles : SettlesUntil operator settings vanilla t changes.conflicts log (some e) t') :
      MergesUntil operator settings file language vanilla t so ((source, modded) :: rest) log (.error e) t'
  | unparsed {t t' : Moment} {so : Merged} {source : String} {modded : Tree} {rest : List (String × Tree)}
      {changes : Changes} {log : List Decision} {text : List Char} {e : ParseError}
      (hdiff : diff ⟨file, so.label, source⟩ so.tree modded = some changes)
      (hsettles : SettlesUntil operator settings vanilla t changes.conflicts log none t')
      (hmade : materialize so.tree { changes with conflicts := log.map Decision.settled } = .ok text)
      (hparse : language.parse text = .error e) :
      MergesUntil operator settings file language vanilla t so ((source, modded) :: rest) log
        (.ok (.error ⟨source, e.message⟩)) t'
  | cons {t t₁ t' : Moment} {so : Merged} {source : String} {modded tree : Tree}
      {rest : List (String × Tree)} {changes : Changes} {log log' : List Decision} {text : List Char}
      {r : Except FileFailure (Except Unparsed Merged)}
      (hdiff : diff ⟨file, so.label, source⟩ so.tree modded = some changes)
      (hsettles : SettlesUntil operator settings vanilla t changes.conflicts log none t₁)
      (hmade : materialize so.tree { changes with conflicts := log.map Decision.settled } = .ok text)
      (hparse : language.parse text = .ok tree)
      (hrest : MergesUntil operator settings file language vanilla t₁
        ⟨tree, s!"{so.label} + {source}", so.conflicts ++ log.map Decision.report⟩ rest log' r t') :
      MergesUntil operator settings file language vanilla t so ((source, modded) :: rest) (log ++ log') r t'

/-- Whether something in a tree takes the place of another thing. -/
def Language.Redefines (l : Language) (t : Tree) : Prop :=
  ∃ cs, l.constructs t.source = .ok cs ∧ redefinesAmong .empty cs = true

/-- No tree but a script redefines anything. -/
theorem Language.Redefines.eq_script {l : Language} {t : Tree} {text : List Char} (h : l.Redefines t)
    (ht : l.parse text = .ok t) : l = .script := by
  obtain ⟨cs, hcs, hredefines⟩ := h
  cases l with
  | script => rfl
  | markup =>
    obtain ⟨fs, hwritten⟩ := written_of_parse ht (by simp)
    rw [hwritten.not_redefines cs hcs] at hredefines
    cases hredefines

/-- A comparison that does not come to an end is one with a tree that redefines something. -/
theorem redefines_of_diff_none {l : Language} {text : List Char} {names : SourceNames} {base mod : Tree}
    (hmod : l.parse text = .ok mod) (h : diff names base mod = none) : l.Redefines mod := by
  by_contra hnew
  obtain ⟨c, hc⟩ := diff_completes names base hmod fun cs hcs => by
    rw [Bool.eq_false_iff]
    exact fun hredefines => hnew ⟨cs, hcs, hredefines⟩
  rw [h] at hc
  cases hc

section Settles

variable {operator : Operator} {time : Nat} {settings : MergeSettings} {vanilla : Option Tree} {t t' : Moment}

theorem Settles.resolved {cs : List Conflict} {settled : List (Conflict × Bool)}
    (h : Settles operator settings vanilla t cs settled t') :
    List.Forall₂ (fun c c' => ∃ choice, c' = c.resolve choice) cs (settled.map Prod.fst) := by
  induction h with
  | nil => exact .nil
  | automatic _ _ ih => exact .cons ⟨_, rfl⟩ ih
  | asked _ _ _ ih => exact .cons ⟨_, rfl⟩ ih

/-- A record keeps its names when it is settled. -/
theorem Settles.names {names : SourceNames} {cs : List Conflict} {settled : List (Conflict × Bool)}
    (h : Settles operator settings vanilla t cs settled t') (hcs : ∀ c ∈ cs, c.names = names) :
    ∀ x ∈ settled, x.1.names = names := by
  intro x hx
  obtain ⟨c, hc, choice, hresolve⟩ := exists_of_forall₂_right h.resolved (List.mem_map_of_mem hx)
  rw [hresolve]
  exact hcs c hc

/-- Whether the operator has just ended the run. -/
def Moment.IsAborted (t : Moment) : Prop := ∃ c past, t.past = .asked c .abort :: past

/-- Whether work failed because the operator gave no choice. -/
def FileFailure.IsRefusal (e : FileFailure) (t : Moment) : Prop :=
  e = .aborted ∧ t.IsAborted ∨ ∃ reason, e = .refused reason

/-- A failure that ends a run has one cause. -/
theorem FileFailure.cause_of_ending {e : FileFailure} {t : Moment} {P : Prop}
    (h : e.IsRefusal t ∨ e = .merge .outOfRange ∧ P) :
    (e = .aborted → t.IsAborted) ∧ (e = .merge .outOfRange → P) := by
  obtain (⟨rfl, haborted⟩ | ⟨reason, rfl⟩) | ⟨rfl, hp⟩ := h
  · exact ⟨fun _ => haborted, by simp⟩
  · exact ⟨by simp, by simp⟩
  · exact ⟨by simp, fun _ => hp⟩

/-- The operator gives a choice or not. Without one nothing changes. -/
theorem Ends.putToOperator_cases {c : Conflict} {r : Except FileFailure Conflict}
    (h : Ends operator time c.putToOperator t r t') :
    (∃ e, r = .error e ∧ (operator t.past c).failure? = some e ∧
        t' = ⟨t.progress, .asked c (operator t.past c) :: t.past⟩) ∨
      ∃ choice, operator t.past c = .choose choice ∧ r = .ok (c.resolve choice) ∧ t' = t.answered c choice := by
  replace h := ends_ask_iff.1 h
  cases hanswer : operator t.past c with
  | choose choice =>
    simp only [hanswer] at h
    exact .inr ⟨choice, rfl, ends_pure_iff.1 (ends_modify_iff.1 (ends_get_iff.1 h))⟩
  | refuse reason =>
    simp only [hanswer] at h
    obtain ⟨rfl, rfl⟩ := ends_throw_iff.1 h
    exact .inl ⟨_, rfl, rfl, rfl⟩
  | abort =>
    simp only [hanswer] at h
    obtain ⟨rfl, rfl⟩ := ends_throw_iff.1 h
    exact .inl ⟨_, rfl, rfl, rfl⟩

/-- A record is settled, without asking if there is a choice for it, or the operator gives none. -/
theorem Ends.settle_cases {c : Conflict} {r : Except FileFailure (Conflict × Bool)}
    (h : Ends operator time (c.settle settings vanilla) t r t') :
    (∃ e, r = .error e ∧ c.automaticChoice? settings t.progress.session vanilla = none ∧
        (operator t.past c).failure? = some e ∧
        t' = ⟨t.progress, .asked c (operator t.past c) :: t.past⟩) ∨
      (∃ choice, c.automaticChoice? settings t.progress.session vanilla = some choice ∧
        r = .ok (c.resolve choice, true) ∧ t' = t) ∨
      ∃ choice, c.automaticChoice? settings t.progress.session vanilla = none ∧
        operator t.past c = .choose choice ∧ r = .ok (c.resolve choice, false) ∧ t' = t.answered c choice := by
  rw [Conflict.settle_eq] at h
  replace h := ends_get_iff.1 h
  cases hchoice : c.automaticChoice? settings t.progress.session vanilla with
  | some choice =>
    simp only [hchoice] at h
    exact .inr (.inl ⟨choice, rfl, ends_pure_iff.1 h⟩)
  | none =>
    simp only [hchoice] at h
    obtain ⟨e, hput, rfl⟩ | ⟨_, t₁, hput, h⟩ := h.bind_cases
    · obtain ⟨_, he, hanswer, rfl⟩ | ⟨_, -, hr, -⟩ := hput.putToOperator_cases
      · cases he
        exact .inl ⟨e, rfl, rfl, hanswer, rfl⟩
      · cases hr
    · obtain ⟨rfl, rfl⟩ := ends_pure_iff.1 h
      obtain ⟨_, he, -⟩ | ⟨choice, hanswer, hr, rfl⟩ := hput.putToOperator_cases
      · cases he
      · cases hr
        exact .inr (.inr ⟨choice, rfl, hanswer, rfl, rfl⟩)

/-- What settling records comes to. -/
theorem Ends.settleAll_until {cs : List Conflict} {r : Except FileFailure (List (Conflict × Bool))}
    (h : Ends operator time (settleAll settings vanilla cs) t r t') :
    ∃ log failure?, SettlesUntil operator settings vanilla t cs log failure? t' ∧
      r = match failure? with
        | none => .ok (log.map fun x => (x.settled, x.automatic))
        | some e => .error e := by
  induction cs generalizing t r with
  | nil =>
    obtain ⟨rfl, rfl⟩ := ends_pure_iff.1 h
    exact ⟨[], none, .nil, rfl⟩
  | cons c rest ih =>
    obtain ⟨e, hsettle, rfl⟩ | ⟨settled, t₁, hsettle, h⟩ := Ends.bind_cases h
    · obtain ⟨_, he, hnone, hanswer, rfl⟩ | ⟨_, -, hr, -⟩ | ⟨_, -, -, hr, -⟩ := hsettle.settle_cases
      · cases he
        exact ⟨[], some e, .unanswered hnone hanswer, rfl⟩
      · cases hr
      · cases hr
    · have hall : ∃ log failure?, SettlesUntil operator settings vanilla t₁ rest log failure? t' ∧
          r = match failure? with
            | none => .ok (settled :: log.map fun x => (x.settled, x.automatic))
            | some e => .error e := by
        obtain ⟨e, hrest, rfl⟩ | ⟨all, t₂, hrest, h⟩ := Ends.bind_cases h
        · obtain ⟨log, _ | _, hlog, he⟩ := ih hrest
          · cases he
          · cases he
            exact ⟨log, some e, hlog, rfl⟩
        · obtain ⟨rfl, rfl⟩ := ends_pure_iff.1 h
          obtain ⟨log, _ | _, hlog, hall⟩ := ih hrest
          · cases hall
            exact ⟨log, none, hlog, rfl⟩
          · cases hall
      obtain ⟨log, failure?, hlog, rfl⟩ := hall
      obtain ⟨_, he, -⟩ | ⟨choice, hchoice, hr, rfl⟩ | ⟨choice, hnone, hanswer, hr, rfl⟩ :=
        hsettle.settle_cases
      · cases he
      · cases hr
        exact ⟨_, failure?, .automatic hchoice hlog, by cases failure? <;> rfl⟩
      · cases hr
        exact ⟨_, failure?, .asked hnone hanswer hlog, by cases failure? <;> rfl⟩

section Until

variable {cs : List Conflict} {log : List Decision} {failure? : Option FileFailure} {e : FileFailure}

theorem SettlesUntil.settles (h : SettlesUntil operator settings vanilla t cs log failure? t')
    (hnone : failure? = none) :
    Settles operator settings vanilla t cs (log.map fun x => (x.settled, x.automatic)) t' := by
  induction h with
  | nil => exact .nil
  | automatic hchoice _ ih => exact .automatic hchoice (ih hnone)
  | asked hchoice hanswer _ ih => exact .asked hchoice hanswer (ih hnone)
  | unanswered => cases hnone

/-- Settling changes nothing but the session. -/
theorem SettlesUntil.progress_eq (h : SettlesUntil operator settings vanilla t cs log failure? t') :
    t'.progress = { t.progress with session := t'.progress.session } := by
  induction h with
  | nil => rfl
  | automatic _ _ ih => exact ih
  | asked _ _ _ ih => exact ih
  | unanswered => rfl

/-- An answer that is no choice comes last. -/
theorem SettlesUntil.isRefusal (h : SettlesUntil operator settings vanilla t cs log failure? t')
    (he : failure? = some e) : e.IsRefusal t' := by
  induction h with
  | nil => cases he
  | automatic _ _ ih => exact ih he
  | asked _ _ _ ih => exact ih he
  | @unanswered t c rest e' hnone hanswer =>
    cases he
    cases hop : operator t.past c with
    | choose choice => simp [hop, Answer.failure?] at hanswer
    | refuse reason =>
      rw [hop] at hanswer
      cases hanswer
      exact .inr ⟨reason, rfl⟩
    | abort =>
      rw [hop] at hanswer
      cases hanswer
      exact .inl ⟨rfl, c, t.past, rfl⟩

end Until

end Settles

section Folds

variable {m : FileMerger} {operator : Operator} {time : Nat} {file : String} {language : Language}
  {vanilla : Option Tree} {t t' : Moment} {so : Merged} {d d' : Disk}

/-- The records of a file's fold are all under the file's name. -/
theorem Folds.names_file {merged : Merged} {mods : List (String × Tree)} {settings : MergeSettings}
    (h : Folds operator settings file language vanilla t so mods merged t')
    (hso : ∀ c ∈ so.conflicts, c.names.file = file) : ∀ c ∈ merged.conflicts, c.names.file = file := by
  induction h with
  | nil => exact hso
  | cons hdiff hsettles _ _ _ ih =>
    refine ih fun c hc => ?_
    obtain hc | hc := List.mem_append.1 hc
    · exact hso c hc
    · obtain ⟨x, hx, rfl⟩ := List.mem_map.1 hc
      exact congrArg SourceNames.file (hsettles.names (names_of_mem_diff hdiff) x hx)

/-- One more mod is merged in, unless it cannot be compared or the operator gives no choice; no edits stand in
the way of that. -/
theorem Ends.mergeMod_until {source : String} {modded : Tree} {text text' : List Char}
    {r : Except FileFailure (Except Unparsed Merged)} (hso : language.parse text = .ok so.tree)
    (hmodded : language.parse text' = .ok modded)
    (h : Ends operator time (m.mergeMod file language vanilla so source modded) t r t') :
    (diff ⟨file, so.label, source⟩ so.tree modded = none ∧ r = .error (.merge .outOfRange) ∧ t' = t) ∨
      ∃ changes log failure?, diff ⟨file, so.label, source⟩ so.tree modded = some changes ∧
        SettlesUntil operator m.settings vanilla t changes.conflicts log failure? t' ∧
        ((∃ e, failure? = some e ∧ r = .error e) ∨ failure? = none ∧ ∃ out,
          materialize so.tree { changes with conflicts := log.map Decision.settled } = .ok out ∧
          r = .ok (match language.parse out with
            | .error e => .error ⟨source, e.message⟩
            | .ok tree => .ok ⟨tree, s!"{so.label} + {source}",
                so.conflicts ++ log.map Decision.report⟩)) := by
  unfold FileMerger.mergeMod at h
  cases hdiff : diff ⟨file, so.label, source⟩ so.tree modded with
  | none =>
    simp only [hdiff] at h
    obtain ⟨rfl, rfl⟩ := ends_throw_iff.1 h
    exact .inl ⟨rfl, rfl, rfl⟩
  | some changes =>
    simp only [hdiff] at h
    refine .inr ?_
    obtain ⟨e, hsettle, rfl⟩ | ⟨settled, t₁, hsettle, h⟩ := Ends.bind_cases h
    · obtain ⟨log, _ | e', hlog, he⟩ := hsettle.settleAll_until
      · cases he
      · cases he
        exact ⟨changes, log, some e, rfl, hlog, .inl ⟨e, rfl, rfl⟩⟩
    · obtain ⟨log, _ | e', hlog, hs⟩ := hsettle.settleAll_until
      · cases hs
        have hresolved := (hlog.settles rfl).resolved
        obtain ⟨out, hmade⟩ := materialize_of_resolved hso hmodded hdiff hresolved
        simp only [hmade] at h
        rw [List.map_map] at hmade
        cases hparse : language.parse out with
        | error e =>
          simp only [hparse] at h
          obtain ⟨rfl, rfl⟩ := ends_pure_iff.1 h
          exact ⟨changes, log, none, rfl, hlog, .inr ⟨rfl, out, hmade, by rw [hparse]⟩⟩
        | ok tree =>
          simp only [hparse, List.map_map] at h
          obtain ⟨rfl, rfl⟩ := ends_pure_iff.1 h
          exact ⟨changes, log, none, rfl, hlog, .inr ⟨rfl, out, hmade, by rw [hparse]; rfl⟩⟩
      · cases hs

/-- What merging trees in comes to. -/
theorem Ends.mergeMods_until {mods : List (String × Tree)} {r : Except FileFailure (Except Unparsed Merged)}
    (hso : ∃ text, language.parse text = .ok so.tree)
    (hmods : ∀ x ∈ mods, ∃ text, language.parse text = .ok x.2)
    (h : Ends operator time (m.mergeMods file language vanilla so mods) t r t') :
    ∃ log, MergesUntil operator m.settings file language vanilla t so mods log r t' := by
  induction mods generalizing t so with
  | nil =>
    obtain ⟨rfl, rfl⟩ := ends_pure_iff.1 h
    exact ⟨[], .nil⟩
  | cons x rest ih =>
    obtain ⟨source, modded⟩ := x
    rw [List.forall_mem_cons] at hmods
    obtain ⟨text, hso⟩ := hso
    obtain ⟨⟨text', hmodded⟩, hrest⟩ := hmods
    obtain ⟨e, hmod, rfl⟩ | ⟨q, t₁, hmod, h⟩ := Ends.bind_cases h
    · obtain ⟨hdiff, he, rfl⟩ | ⟨changes, log, _, hdiff, hlog, ⟨_, rfl, he⟩ | ⟨-, _, -, he⟩⟩ :=
        hmod.mergeMod_until hso hmodded
      · cases he
        exact ⟨[], .outOfRange hdiff⟩
      · cases he
        exact ⟨log, .unanswered hdiff hlog⟩
      · cases he
    · obtain ⟨-, hq, -⟩ | ⟨changes, log, _, hdiff, hlog, ⟨_, -, hq⟩ | ⟨rfl, out, hmade, hq⟩⟩ :=
        hmod.mergeMod_until hso hmodded
      · cases hq
      · cases hq
      · obtain rfl := Except.ok.inj hq
        cases hparse : language.parse out with
        | error e =>
          simp only [hparse] at h
          obtain ⟨rfl, rfl⟩ := ends_pure_iff.1 h
          exact ⟨log, .unparsed hdiff hlog hmade hparse⟩
        | ok tree =>
          simp only [hparse] at h
          obtain ⟨log', hlog'⟩ := ih ⟨out, hparse⟩ hrest h
          exact ⟨log ++ log', .cons hdiff hlog hmade hparse hlog'⟩

section Until

variable {settings : MergeSettings} {mods : List (String × Tree)} {log : List Decision}
  {r : Except FileFailure (Except Unparsed Merged)}

theorem MergesUntil.progress_eq (h : MergesUntil operator settings file language vanilla t so mods log r t') :
    t'.progress = { t.progress with session := t'.progress.session } := by
  induction h with
  | nil => rfl
  | outOfRange => rfl
  | unanswered _ hsettles => exact hsettles.progress_eq
  | unparsed _ hsettles => exact hsettles.progress_eq
  | cons _ hsettles _ _ _ ih => rw [ih, hsettles.progress_eq]

/-- A merge that comes to its end is a fold. -/
theorem MergesUntil.folds {merged : Merged}
    (h : MergesUntil operator settings file language vanilla t so mods log r t') (hr : r = .ok (.ok merged)) :
    Folds operator settings file language vanilla t so mods merged t' := by
  induction h with
  | nil =>
    cases hr
    exact .nil
  | outOfRange => cases hr
  | unanswered => cases hr
  | unparsed => cases hr
  | @cons t t₁ t' so source modded tree rest changes log log' text r hdiff hsettles hmade hparse hrest ih =>
    refine .cons hdiff (hsettles.settles rfl) ?_ hparse ?_
    · rw [List.map_map]
      exact hmade
    · rw [List.map_map]
      exact ih hr

/-- A merge fails because the operator gives no choice, or because a mod redefines something. -/
theorem MergesUntil.cause {e : FileFailure}
    (h : MergesUntil operator settings file language vanilla t so mods log r t') (hr : r = .error e)
    (hmods : ∀ x ∈ mods, ∃ text, language.parse text = .ok x.2) :
    e.IsRefusal t' ∨ e = .merge .outOfRange ∧ ∃ x ∈ mods, language.Redefines x.2 := by
  induction h with
  | nil => cases hr
  | outOfRange hdiff =>
    cases hr
    obtain ⟨text, hparse⟩ := hmods _ List.mem_cons_self
    exact .inr ⟨rfl, _, List.mem_cons_self, redefines_of_diff_none hparse hdiff⟩
  | unanswered _ hsettles =>
    cases hr
    exact .inl (hsettles.isRefusal rfl)
  | unparsed => cases hr
  | cons _ _ _ _ _ ih =>
    exact (ih hr fun x hx => hmods x (List.mem_cons_of_mem _ hx)).imp_right
      fun ⟨he, x, hx, hredefines⟩ => ⟨he, x, List.mem_cons_of_mem _ hx, hredefines⟩

end Until

/-- Each tree that is read is that of a copy. -/
theorem Disk.readTrees?_forall₂ {copies : List ModFile} {trees : List (String × Tree)}
    (h : d.readTrees? language copies = some (.ok trees)) :
    List.Forall₂ (fun copy x => x.1 = copy.source ∧ d.readTree? language copy.path = some (.ok x.2))
      copies trees := by
  induction copies generalizing trees with
  | nil =>
    cases h
    exact .nil
  | cons copy rest ih =>
    simp only [readTrees?, Option.bind_eq_bind] at h
    obtain ⟨q, hread, h⟩ := Option.bind_eq_some_iff.1 h
    cases q with
    | error reason => cases h
    | ok tree =>
      obtain ⟨q', hrest, h⟩ := Option.bind_eq_some_iff.1 h
      cases q' with
      | error u => cases h
      | ok trees' =>
        cases h
        exact .cons ⟨rfl, hread⟩ (ih hrest)

theorem Disk.exists_copy_of_readTrees? {copies : List ModFile} {trees : List (String × Tree)}
    (h : d.readTrees? language copies = some (.ok trees)) {x : String × Tree} (hx : x ∈ trees) :
    ∃ copy ∈ copies, d.readTree? language copy.path = some (.ok x.2) := by
  obtain ⟨copy, hcopy, -, hread⟩ := exists_of_forall₂_right (readTrees?_forall₂ h) hx
  exact ⟨copy, hcopy, hread⟩

theorem Disk.parse_of_readTree? {path : Path} {tree : Tree}
    (h : d.readTree? language path = some (.ok tree)) : ∃ text, language.parse text = .ok tree := by
  obtain ⟨content, -, h⟩ := Option.map_eq_some_iff.1 h
  cases htext : content.text? with
  | none => simp [htext] at h
  | some text =>
    simp only [htext] at h
    cases hparse : language.parse text with
    | error e => simp [hparse, Except.mapError] at h
    | ok tree' =>
      rw [hparse] at h
      cases h
      exact ⟨text, hparse⟩

/-- Whether two copies are of one mod and hold the same. -/
def Disk.SameCopy (d d' : Disk) (a b : ModFile) : Prop := a.source = b.source ∧ d.read? a.path = d'.read? b.path

theorem Disk.readTrees?_eq {copies others : List ModFile} (h : List.Forall₂ (d.SameCopy d') copies others)
    (language : Language) : d.readTrees? language copies = d'.readTrees? language others := by
  induction h with
  | nil => rfl
  | cons hsame _ ih => simp only [readTrees?, readTree?, hsame.1, hsame.2, ih]

/-- Only the files at the places of the copies count. -/
theorem Disk.readTrees?_congr {copies : List ModFile}
    (h : ∀ copy ∈ copies, d'.read? copy.path = d.read? copy.path) :
    d'.readTrees? language copies = d.readTrees? language copies :=
  readTrees?_eq (List.forall₂_same.2 fun copy hcopy => ⟨rfl, h copy hcopy⟩) language

/-- Whether a file is a script and one of its copies redefines something. -/
def FileMerger.ReadsRedefinition (m : FileMerger) (d : Disk) (file : String) (copies : List ModFile) : Prop :=
  m.settings.language? file = some .script ∧ ∃ copy ∈ copies, ∃ tree,
    d.readTree? .script copy.path = some (.ok tree) ∧ Language.script.Redefines tree

end Folds

end ModWeave
