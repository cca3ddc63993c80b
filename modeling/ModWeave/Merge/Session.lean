import ModWeave.Merge.Materialize

/-! The choices of one merge run. -/
namespace ModWeave

/-- What a run remembers: the choice that settles all later conflicts, once there is one. -/
structure Session where
  runDefault : Option Choice
deriving DecidableEq, Repr

namespace Session

def new : Session := ⟨none⟩

/-- Settles a conflict by the run's default, if there is one. -/
def adopt? (s : Session) (c : Conflict) : Option Conflict := s.runDefault.map c.resolve

/-- Settles a conflict. A choice for all conflicts becomes the run's default. -/
def apply (s : Session) (c : Conflict) (choice : Choice) : Session × Conflict :=
  (if choice.appliesToAll then ⟨some choice⟩ else s, c.resolve choice)

/-- Settles conflicts in order by one choice. -/
def applyAll (s : Session) (choice : Choice) : List Conflict → Session × List Conflict
  | [] => (s, [])
  | c :: rest =>
    let (s, c) := s.apply c choice
    let (s, rest) := s.applyAll choice rest
    (s, c :: rest)

end Session
end ModWeave
