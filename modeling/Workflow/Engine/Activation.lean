import Workflow.Engine

namespace Workflow

/-- Gives an execution its assignees. One has it alone; several share it, each with an assignment
of its own, numbered by `newId`. -/
def Execution.assign (x : Execution) (newId : Nat → String) : List Assignee → Execution
  | [] => x
  | [a] => { x with assignee := some a }
  | assignees =>
    { x with
      isShared := true
      assignments := assignees.mapIdx fun i a => { id := newId i, assignee := a } }

def Execution.start? (x : Execution) (step : Step) (fork : Option String) (flowDue : Option Instant)
    (now : Instant) : Option Execution :=
  (x.status.move? .inProgress).map fun status =>
    { x with
      status := status
      startedAt := some now
      fork := fork
      dueAt := step.due.bind fun d => d.ofStep now flowDue }

/-- Finishes an execution with a result, if it can finish. -/
def Execution.finish (x : Execution) (result : Record) (now : Instant) : Execution :=
  match x.status.move? .completed with
  | none => x
  | some status => { x with status := status, result := result, completedAt := some now }

namespace Session

/-- The position of a step in reading order, as `Execution.stepIndex` has it. -/
def position (flow : Flow) (id : String) : Int :=
  (flow.ids.idxOf? id).getD 0

def finish (s : Session) (execution : String) (result : Record) (now : Instant) : Session :=
  { s with run := s.run.modify execution fun x => x.finish result now }

def openExecutions (r : Run) : List String :=
  (r.executions.filter fun x => x.status.isCompletable).map Execution.id

def endRun (s : Session) (status : TerminateStatus) (now : Instant) : Session :=
  let status : RunStatus := match status with
    | .completed => .completed
    | .cancelled => .cancelled
  let run := { s.run with status := status, completedAt := some now, lastActivityAt := some now }
  { s with run := run }.note (.ended status (openExecutions run))

end Session

namespace Engine

def expect (e : Engine) (flow : Flow) (s : Session) (step : Step) : Session :=
  let id := e.nextId s "exec"
  let (s, assignees) := e.resolve (s.draw 1) step
  let drawn := s.log.drawn
  let x := Execution.assign
    { id := id
      stepId := step.id
      stepIndex := Session.position flow step.id
      quorum := step.body.quorum }
    (fun i => e.newId "asg" (drawn + i)) assignees
  { s.draw x.assignments.length with run.executions := s.run.executions ++ [x] }

/-- Sees to it that a step has a pending execution, and tells its position. -/
def materialize (e : Engine) (flow : Flow) (s : Session) (step : Step) : Session × Nat :=
  match s.run.executions.findIdx? fun x => x.stepId == step.id && x.status == .pending with
  | some i => (s, i)
  | none => (e.expect flow s step, s.run.executions.length)

/-- Starts a step, which gives the execution that it has now. Steps that are over as soon as they
start are not told of. -/
def activate (e : Engine) (flow : Flow) (now : Instant) (s : Session) (step : Step)
    (fork : Option String) : Session × Option Execution :=
  let (s, i) := e.materialize flow s step
  match (s.run.executions[i]?).bind fun x => x.start? step fork s.run.dueAt now with
  | none => (s, none)
  | some x =>
    let s := { s with run := { s.run with
      executions := s.run.executions.set i x
      currentStepIndex := x.stepIndex
      lastActivityAt := some now } }
    if step.body.isPassThrough then (s, some x)
    else
      let timers := match x.dueAt with
        | some due => e.policy.reminders.timers due now
        | none => []
      (s.note (.activated x step s.run.dueAt timers), some x)

end Engine

end Workflow
