import Workflow.Engine.Submission

namespace Workflow

inductive Move where
  | start (flags : Flags)
  | complete (execution : String) (result : Record) (flags : Flags)
  | submit (execution assignment : String) (result : Record) (flags : Flags)
  | fail (execution reason : String)
  | escalate (execution : String)

inductive Answer where
  | advance (a : Advance)
  | submission (s : Submission)
  | done (d : Bool)
  deriving DecidableEq, Repr

namespace Engine

/-- Makes a move. All that happens on it is dated `now`, although a clock that is read several times
on one move can go on in between. -/
def play (e : Engine) (flow : Flow) (now : Instant) (s : Session) : Move → Session × Answer
  | .start flags =>
    let (s, a) := e.start flow now flags s
    (s, .advance a)
  | .complete execution result flags =>
    let (s, a) := e.complete flow now flags s execution result
    (s, .advance a)
  | .submit execution assignment result flags =>
    let (s, a) := e.submit flow now flags s execution assignment result
    (s, .submission a)
  | .fail execution reason =>
    let (s, d) := s.fail execution reason now
    (s, .done d)
  | .escalate execution =>
    let (s, d) := s.escalate execution now
    (s, .done d)

end Engine

end Workflow
