import Workflow.Document.Reader
import Workflow.Server.Flows
import Workflow.Server.Runs

namespace Workflow

structure Completion where
  step : String
  result : Record

namespace Completion

def ofRecord? (r : Record) : Option Completion :=
  (r.find? "stepId").map fun step =>
    { step := match step with
        | .text s => s
        | _ => ""
      result := match r.find? "result" with
        | some (.record fields) => fields
        | _ => [] }

/-- Whatever is no record names no step. -/
def ofValue? : Value → Option Completion
  | .record fields => ofRecord? fields
  | _ => none

end Completion

/-- The entries of a script, which is the text of a list. -/
def scriptEntries (text : String) : Except Document.Refusal (List Value) := do
  let r ← Document.readRecord ("\x7b\"completions\":" ++ text ++ "\x7d")
  match r.find? "completions" with
  | some (.list entries) => return entries
  | _ => return []

/-- A run that is rehearsed, and the server that keeps it. -/
structure Rehearsal where
  server : Server
  state : Server.State
  run : Run

namespace Rehearsal

def audience : Listeners :=
  { notifier := some fun _ _ => .ok () }

def eventLine? (run : String) : Event → Option String
  | .stepActivated execution step _ _ => some ("  activated " ++ step ++ " (" ++ execution ++ ")")
  | .stepCompleted _ step _ => some ("  completed " ++ step)
  | .flowCompleted status => some ("  run " ++ run ++ " finished: " ++ status.name)
  | _ => none

def linesSince (r : Rehearsal) (given : Nat) : List String :=
  let calls := audience.tellAll r.server.engine.policy.linkHours [] (r.state.log.notices.drop given)
  calls.filterMap fun c => eventLine? r.run.id c.event

def start (server : Server) (now : Instant) (f : Flow) : Except Server.Error Rehearsal := do
  let (state, _) ← Server.createFlow {} now f
  let (state, run, _) ← server.startRun state now f.id f.name []
  return ⟨server, state, run⟩

def announce (r : Rehearsal) (c : Completion) : String :=
  if (r.run.latest? c.step).isNone then "skip " ++ c.step ++ ": no execution"
  else "complete " ++ c.step

def submissionLine (assignment : String) (s : Submission) : String :=
  "  assignment " ++ assignment ++ ": " ++ toString s.completed ++ "/" ++ toString s.total

def advanceLines (a : Advance) : List String :=
  if a.completed then []
  else ["  not completed" ++ (if a.revisionNeeded then ": revision needed: " ++ a.feedback else "")]

def answerLines (assignment : String) : Answer → List String
  | .submission s => [submissionLine assignment s]
  | .advance a => advanceLines a
  | .done _ => []

/-- The rehearsal after a call, and what happened in it. -/
def after (r : Rehearsal) (assignment : String) (outcome : Server.State × Run × Answer) :
    Rehearsal × List String :=
  let next : Rehearsal := ⟨r.server, outcome.1, outcome.2.1⟩
  (next, next.linesSince r.state.log.notices.length ++ answerLines assignment outcome.2.2)

/-- Completes a step. Of a shared step, the first assignment that is pending is submitted. -/
def perform (r : Rehearsal) (now : Instant) (c : Completion) :
    Except Server.Error (Rehearsal × List String) :=
  match r.run.latest? c.step with
  | none => .ok (r, [])
  | some x =>
    if x.isShared then
      match x.assignments.find? fun a => a.status == .pending with
      | none => .ok (r, [])
      | some a =>
        (r.server.submitAssignment r.state now r.run.id x.id a.id c.result).map (r.after a.id)
    else (r.server.completeStep r.state now r.run.id x.id c.result {}).map (r.after "")

def summary (r : Rehearsal) : List String :=
  ("run " ++ r.run.id ++ " " ++ r.run.status.name)
    :: r.run.executions.map fun x => "  " ++ x.stepId ++ " " ++ x.status.name

end Rehearsal

end Workflow
