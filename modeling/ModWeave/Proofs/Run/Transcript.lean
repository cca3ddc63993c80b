import ModWeave.Proofs.Run.Outcome

/-!
The transcript of a run: which records were decided, by what, and what passed with the operator for that.
The run's default is the one thing that a decision leaves to later ones, so a transcript is kept in step with
it from record to record, from file to file, and past the files that fail.
-/
namespace ModWeave

namespace Event

/-- Whether the operator is asked. -/
def IsAsked : Event → Prop
  | told _ => False
  | asked .. => True

/-- Whether the operator chooses for all conflicts. -/
def ChoosesForAll : Event → Prop
  | asked _ (.choose choice) => choice.appliesToAll = true
  | _ => False

/-- What was asked about, and the choice, if there is one. -/
def exchange? : Event → Option (Conflict × Choice)
  | asked c (.choose choice) => some (c, choice)
  | _ => none

end Event

namespace Decision

/-- What was asked about, and the choice, if the operator was asked. -/
def exchange? (x : Decision) : Option (Conflict × Choice) :=
  if x.automatic then none else some (x.record, x.choice)

/-- Whether the record settles itself. -/
def SettlesItself (x : Decision) (settings : MergeSettings) : Prop :=
  settings.autoMergeNovel = true ∧ x.record.triage x.vanilla ≠ .conflicting

/-- How a record is decided under the run's default. A change that one side made goes to that side, everything
else by the default, and to the operator if there is none. -/
inductive Follows (settings : MergeSettings) (runDefault : Option Choice) : Decision → Prop
  | novel {c : Conflict} {vanilla : Option Tree} (hauto : settings.autoMergeNovel = true)
      (hnovel : c.triage vanilla = .novel) : Follows settings runDefault ⟨c, vanilla, .takeMod, true⟩
  | redundant {c : Conflict} {vanilla : Option Tree} (hauto : settings.autoMergeNovel = true)
      (hredundant : c.triage vanilla = .redundant) : Follows settings runDefault ⟨c, vanilla, .keepBase, true⟩
  | byDefault {x : Decision} (hopen : ¬x.SettlesItself settings) (hdefault : runDefault = some x.choice)
      (hautomatic : x.automatic = true) : Follows settings runDefault x
  | byOperator {x : Decision} (hopen : ¬x.SettlesItself settings) (hdefault : runDefault = none)
      (hautomatic : x.automatic = false) : Follows settings runDefault x

/-- The run's default once a record is decided. Only an answer of the operator changes it. -/
def defaultAfter (runDefault : Option Choice) (x : Decision) : Option Choice :=
  if x.automatic = false ∧ x.choice.appliesToAll = true then some x.choice else runDefault

/-- Records decided one after the other, each under the default that there is by then. -/
inductive AllFollow (settings : MergeSettings) : Option Choice → List Decision → Prop
  | nil {runDefault : Option Choice} : AllFollow settings runDefault []
  | cons {runDefault : Option Choice} {x : Decision} {rest : List Decision}
      (hx : x.Follows settings runDefault) (hrest : AllFollow settings (x.defaultAfter runDefault) rest) :
      AllFollow settings runDefault (x :: rest)

variable {settings : MergeSettings} {runDefault : Option Choice} {log log' : List Decision}

theorem AllFollow.append (h : AllFollow settings runDefault log)
    (h' : AllFollow settings (log.foldl defaultAfter runDefault) log') :
    AllFollow settings runDefault (log ++ log') := by
  induction h with
  | nil => exact h'
  | cons hx _ ih => exact .cons hx (ih h')

/-- There is no way back from a default. -/
theorem isSome_defaultAfter
    (h : runDefault.isSome = true ∨ ∃ x ∈ log, x.automatic = false ∧ x.choice.appliesToAll = true) :
    (log.foldl defaultAfter runDefault).isSome = true := by
  induction log generalizing runDefault with
  | nil =>
    obtain hsome | ⟨_, hx, -⟩ := h
    · exact hsome
    · cases hx
  | cons x rest ih =>
    rw [List.exists_mem_cons_iff] at h
    refine ih ?_
    by_cases hall : x.automatic = false ∧ x.choice.appliesToAll = true
    · exact .inl (by rw [defaultAfter, if_pos hall]; rfl)
    · obtain hsome | hx | hrest := h
      · exact .inl (by rwa [defaultAfter, if_neg hall])
      · exact absurd hx hall
      · exact .inr hrest

end Decision

/-- What passed from one moment to another, while some records were decided. -/
structure Transcript (settings : MergeSettings) (t : Moment) (log : List Decision) (events : List Event)
    (t' : Moment) : Prop where
  past : t'.past = events ++ t.past
  runDefault : t'.progress.session.runDefault = log.foldl Decision.defaultAfter t.progress.session.runDefault
  /-- The operator's choices are those of the records that were not decided without asking, in order. -/
  exchanges : events.reverse.filterMap Event.exchange? = log.filterMap Decision.exchange?
  follows : Decision.AllFollow settings t.progress.session.runDefault log
  silent : t.progress.session.runDefault.isSome = true → ∀ e ∈ events, ¬e.IsAsked
  once : events.Pairwise fun later earlier => earlier.ChoosesForAll → ¬later.IsAsked

/-- The operator is told things at most. -/
structure Moment.Tells (t t' : Moment) : Prop where
  session : t'.progress.session = t.progress.session
  past : ∃ ns : List Notice, t'.past = ns.map Event.told ++ t.past

namespace Moment.Tells

variable {t t₁ t' : Moment}

theorem refl (t : Moment) : t.Tells t := ⟨rfl, [], rfl⟩

end Moment.Tells

namespace Transcript

variable {settings : MergeSettings} {t t₁ t' : Moment} {log log' : List Decision} {events events' : List Event}

theorem refl (t : Moment) : Transcript settings t [] [] t :=
  ⟨rfl, rfl, rfl, .nil, by simp, .nil⟩

/-- Nothing is decided while the operator is told things. -/
theorem of_tells (h : t.Tells t') : ∃ events, Transcript settings t [] events t' := by
  obtain ⟨ns, hpast⟩ := h.past
  have htold {e : Event} (he : e ∈ ns.map Event.told) : ¬e.IsAsked := by
    obtain ⟨n, -, rfl⟩ := List.mem_map.1 he
    exact id
  refine ⟨ns.map .told, hpast, congrArg _ h.session, ?_, .nil, fun _ _ he => htold he,
    List.pairwise_of_forall_mem_list fun _ hlater _ _ _ => htold hlater⟩
  rw [← List.map_reverse, List.filterMap_map]
  exact List.filterMap_eq_nil_iff.2 fun _ _ => rfl

/-- A choice for all conflicts has become the default. -/
theorem isSome_runDefault (h : Transcript settings t log events t') {e : Event} (he : e ∈ events)
    (hall : e.ChoosesForAll) : t'.progress.session.runDefault.isSome = true := by
  obtain ⟨c, choice, rfl, hchoice⟩ : ∃ c choice, e = .asked c (.choose choice) ∧
      choice.appliesToAll = true := by
    match e with
    | .asked c (.choose choice) => exact ⟨c, choice, rfl, hall⟩
  have hexchange : (c, choice) ∈ events.reverse.filterMap Event.exchange? :=
    List.mem_filterMap.2 ⟨_, List.mem_reverse.2 he, rfl⟩
  rw [h.exchanges] at hexchange
  obtain ⟨x, hx, hexchange⟩ := List.mem_filterMap.1 hexchange
  rw [h.runDefault]
  refine Decision.isSome_defaultAfter (.inr ⟨x, hx, ?_⟩)
  unfold Decision.exchange? at hexchange
  split at hexchange
  · cases hexchange
  · next hautomatic =>
    cases hexchange
    exact ⟨Bool.eq_false_iff.2 hautomatic, hchoice⟩

/-- A transcript goes on where another ends. -/
theorem trans (h : Transcript settings t log events t₁) (h' : Transcript settings t₁ log' events' t') :
    Transcript settings t (log ++ log') (events' ++ events) t' where
  past := by rw [h'.past, h.past, List.append_assoc]
  runDefault := by rw [h'.runDefault, h.runDefault, List.foldl_append]
  exchanges := by
    rw [List.reverse_append, List.filterMap_append, List.filterMap_append, h.exchanges, h'.exchanges]
  follows := h.follows.append (h.runDefault ▸ h'.follows)
  silent hdefault e he := by
    obtain he | he := List.mem_append.1 he
    · exact h'.silent (by rw [h.runDefault]; exact Decision.isSome_defaultAfter (.inl hdefault)) e he
    · exact h.silent hdefault e he
  once := List.pairwise_append.2 ⟨h'.once, h.once, fun _ hlater _ hearlier hall =>
    h'.silent (h.isSome_runDefault hearlier hall) _ hlater⟩

end Transcript

section Settles

variable {operator : Operator} {settings : MergeSettings} {vanilla : Option Tree} {t t' : Moment}
  {c : Conflict} {choice : Choice}

/-- A record is decided without asking. -/
theorem Transcript.of_automatic (h : c.automaticChoice? settings t.progress.session vanilla = some choice) :
    Transcript settings t [⟨c, vanilla, choice, true⟩] [] t where
  past := rfl
  runDefault := rfl
  exchanges := rfl
  follows := by
    refine .cons ?_ .nil
    unfold Conflict.automaticChoice? Conflict.triageChoice? at h
    split at h
    · next hauto =>
      cases htriage : c.triage vanilla with
      | novel =>
        rw [htriage] at h
        cases h
        exact .novel hauto htriage
      | redundant =>
        rw [htriage] at h
        cases h
        exact .redundant hauto htriage
      | conflicting =>
        rw [htriage] at h
        exact .byDefault (fun hsettles => hsettles.2 htriage) h rfl
    · next hauto => exact .byDefault (fun hsettles => hauto hsettles.1) h rfl
  silent := by simp
  once := .nil

/-- The operator has to be asked about a record. -/
theorem open_of_automaticChoice?_eq_none {automatic : Bool}
    (h : c.automaticChoice? settings t.progress.session vanilla = none) :
    ¬Decision.SettlesItself ⟨c, vanilla, choice, automatic⟩ settings ∧
      t.progress.session.runDefault = none := by
  unfold Conflict.automaticChoice? at h
  cases htriage : c.triageChoice? settings vanilla with
  | some choice => rw [htriage] at h; cases h
  | none =>
    rw [htriage] at h
    refine ⟨fun ⟨hauto, hsettles⟩ => ?_, h⟩
    unfold Conflict.triageChoice? at htriage
    rw [if_pos hauto] at htriage
    cases hstatus : c.triage vanilla with
    | novel => rw [hstatus] at htriage; cases htriage
    | redundant => rw [hstatus] at htriage; cases htriage
    | conflicting => exact hsettles hstatus

/-- A record is decided by the operator. -/
theorem Transcript.of_asked (h : c.automaticChoice? settings t.progress.session vanilla = none) :
    Transcript settings t [⟨c, vanilla, choice, false⟩] [.asked c (.choose choice)] (t.answered c choice) := by
  obtain ⟨hopen, hdefault⟩ := open_of_automaticChoice?_eq_none h
  refine ⟨rfl, ?_, rfl, .cons (.byOperator hopen hdefault rfl) .nil, by simp [hdefault],
    List.pairwise_singleton _ _⟩
  cases choice <;> rfl

/-- The operator gives no choice. -/
theorem Transcript.of_unanswered (h : c.automaticChoice? settings t.progress.session vanilla = none)
    {answer : Answer} {e : FileFailure} (hanswer : answer.failure? = some e) :
    Transcript settings t [] [.asked c answer] ⟨t.progress, .asked c answer :: t.past⟩ := by
  have hdefault := (@open_of_automaticChoice?_eq_none _ _ _ _ .keepBase false h).2
  refine ⟨rfl, rfl, ?_, .nil, by simp [hdefault], List.pairwise_singleton _ _⟩
  cases answer with
  | choose => cases hanswer
  | refuse => rfl
  | abort => rfl

theorem SettlesUntil.transcript {cs : List Conflict} {log : List Decision} {failure? : Option FileFailure}
    (h : SettlesUntil operator settings vanilla t cs log failure? t') :
    ∃ events, Transcript settings t log events t' := by
  induction h with
  | nil => exact ⟨[], .refl _⟩
  | automatic hchoice _ ih =>
    obtain ⟨events, hrest⟩ := ih
    exact ⟨_, (Transcript.of_automatic hchoice).trans hrest⟩
  | asked hnone _ _ ih =>
    obtain ⟨events, hrest⟩ := ih
    exact ⟨_, (Transcript.of_asked hnone).trans hrest⟩
  | unanswered hnone hanswer => exact ⟨_, .of_unanswered hnone hanswer⟩

theorem MergesUntil.transcript {file : String} {language : Language} {so : Merged}
    {mods : List (String × Tree)} {log : List Decision} {r : Except FileFailure (Except Unparsed Merged)}
    (h : MergesUntil operator settings file language vanilla t so mods log r t') :
    ∃ events, Transcript settings t log events t' := by
  induction h with
  | nil => exact ⟨[], .refl _⟩
  | outOfRange => exact ⟨[], .refl _⟩
  | unanswered _ hsettles => exact hsettles.transcript
  | unparsed _ hsettles => exact hsettles.transcript
  | cons _ hsettles _ _ _ ih =>
    obtain ⟨events, hmod⟩ := hsettles.transcript
    obtain ⟨events', hrest⟩ := ih
    exact ⟨_, hmod.trans hrest⟩

end Settles

end ModWeave
