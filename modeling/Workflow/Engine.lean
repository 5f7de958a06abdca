import Workflow.Notice
import Workflow.Plan

/-!
The engine's settings, whom it asks for advice, and the session in which it moves one run.
-/

namespace Workflow

inductive Verdict where
  | approved
  | revise (feedback : String) (issues : List String)
  deriving DecidableEq, Repr

/-- Those whose answers shape a run. Whoever is missing is not asked. -/
structure Advisers where
  /-- Judges a submission; the number is that of the reviews before. -/
  reviewer : Option (Nat → Step → Record → Reply Verdict) := none
  /-- Names the assignees of a step. -/
  assignees : Option (Step → Run → Reply (List Assignee)) := none

structure Engine where
  policy : EnginePolicy := {}
  catalogue : Catalogue := .standard
  advisers : Advisers := {}
  /-- The identifier of a kind of thing that is drawn after so many others. -/
  newId : String → Nat → String

structure Log where
  drawn : Nat := 0
  reviews : Nat := 0
  notices : List Notice := []

structure Session where
  run : Run
  log : Log := {}

namespace Session

def note (s : Session) (n : Notice) : Session :=
  { s with log.notices := s.log.notices ++ [n] }

/-- Takes note that the next `n` identifiers are used. -/
def draw (s : Session) (n : Nat) : Session :=
  { s with log.drawn := s.log.drawn + n }

end Session

namespace Engine

def nextId (e : Engine) (s : Session) (kind : String) : String :=
  e.newId kind s.log.drawn

/-- Asks for the assignees of a step. Only people are assigned, and without an answer nobody is. -/
def resolve (e : Engine) (s : Session) (step : Step) : Session × List Assignee :=
  match e.advisers.assignees with
  | none => (s, [])
  | some answer =>
    if step.category = .humanAction then
      let reply := answer step s.run
      (s.note (.resolved step.id reply.failure?), reply.toOption.getD [])
    else (s, [])

/-- Asks what to think of a submission. Without an answer it is approved. -/
def review (e : Engine) (s : Session) (step : Step) (result : Record) : Session × Verdict :=
  match e.advisers.reviewer with
  | none => (s, .approved)
  | some answer =>
    if step.body.isReviewed then
      let reply := answer s.log.reviews step result
      ({ s with log.reviews := s.log.reviews + 1 }.note (.reviewed step.id reply.failure?),
        reply.toOption.getD .approved)
    else (s, .approved)

end Engine

end Workflow
