import Workflow.Proofs.Growth

/-!
An engine that makes its calls itself, at the moment that it has something to tell, and not from
notices that were kept. A call that is refused breaks off whatever is being done. The engine guards
each of its calls, so that no more than the call is broken off.
-/

namespace Workflow

/-- What a live engine has before it: a run, what was drawn and asked for, and the calls so far. -/
structure Stage where
  run : Run
  drawn : Nat := 0
  reviews : Nat := 0
  calls : List Call := []

/-- Work on a stage. When it is broken off, the stage stays as it is at that moment. -/
abbrev Live := EStateM String Stage

namespace Live

/-- Takes a reply to a call. A refusal breaks off the work. -/
def hear {α : Type} (event : Event) (reply : Reply α) : Live α := do
  modify fun t => { t with calls := t.calls ++ [⟨event, reply.failure?⟩] }
  match reply with
  | .ok a => pure a
  | .error failure => throw failure

def ask {α : Type} (answer : Listener α) (event : Event) : Live α := do
  let t ← get
  hear event (answer t.calls event)

/-- Goes on with something else when the work is broken off. -/
def guarded {α : Type} (instead : α) (work : Live α) : Live α :=
  tryCatch work fun _ => pure instead

def tell (listener : Option (Listener Unit)) (event : Event) : Live Unit :=
  match listener with
  | none => pure ()
  | some answer => guarded () (ask answer event)

def getRun : Live Run := do
  let t ← get
  pure t.run

def setRun (change : Run → Run) : Live Unit :=
  modify fun t => { t with run := change t.run }

end Live

/-- What is still ahead of a run on its way: so many plans, which are pending or paid for from the
budget. -/
structure Trip (weight : Nat) where
  advance : Advance
  budget : Nat
  pending : List Plan
  exhausted : Bool
  weighs : budget + pending.length = weight

structure LiveEngine where
  engine : Engine
  listeners : Listeners

namespace LiveEngine

open Live

variable (e : LiveEngine)

def hours : UInt32 :=
  e.engine.policy.linkHours

/-- Gives a contact a token and mails it. The one guard is for both. -/
def sendLink (execution step : String) (contact : Assignee) : Live Unit :=
  match e.listeners.links with
  | none => pure ()
  | some answer =>
    guarded () do
      let token ← ask answer (.token execution e.hours)
      if token = "" ∨ contact.email = "" then pure ()
      else
        match e.listeners.email with
        | none => pure ()
        | some answer => ask answer (.email contact.email token step)

def startSubFlow (execution : String) (step : Step) : Live Unit :=
  match step.body with
  | .subFlow template _ => tell e.listeners.subFlows (.subFlow execution template)
  | _ => pure ()

def announce (x : Execution) (step : Step) (flowDue : Option Instant) (timers : List Timer) :
    Live Unit := do
  timers.forM fun timer => tell e.listeners.timers (.schedule x.id timer)
  tell e.listeners.notifier (.stepActivated x.id step.id step.due.isSome flowDue)
  e.startSubFlow x.id step
  x.contacts.forM (e.sendLink x.id step.id)

/-- Asks for the assignees of a step. A refusal stands for none. -/
def resolve (step : Step) : Live (List Assignee) :=
  match e.engine.advisers.assignees with
  | none => pure []
  | some answer =>
    if step.category = .humanAction then
      guarded [] do
        let r ← getRun
        hear (.resolve step.id) (answer step r)
    else pure []

/-- Asks what to think of a submission. A refusal stands for approval. -/
def review (step : Step) (result : Record) : Live Verdict :=
  match e.engine.advisers.reviewer with
  | none => pure .approved
  | some answer =>
    if step.body.isReviewed then
      guarded .approved do
        let t ← get
        set { t with reviews := t.reviews + 1 }
        hear (.review step.id) (answer t.reviews step result)
    else pure .approved

def draw (kind : String) : Live String := do
  let t ← get
  set { t with drawn := t.drawn + 1 }
  pure (e.engine.newId kind t.drawn)

def expect (flow : Flow) (step : Step) : Live Unit := do
  let id ← e.draw "exec"
  let assignees ← e.resolve step
  modify fun t =>
    let x := Execution.assign
      { id := id
        stepId := step.id
        stepIndex := Session.position flow step.id
        quorum := step.body.quorum }
      (fun i => e.engine.newId "asg" (t.drawn + i)) assignees
    { t with
      drawn := t.drawn + x.assignments.length
      run := { t.run with executions := t.run.executions ++ [x] } }

def materialize (flow : Flow) (step : Step) : Live Nat := do
  let r ← getRun
  match r.executions.findIdx? fun x => x.stepId == step.id && x.status == .pending with
  | some i => pure i
  | none => do
    e.expect flow step
    pure r.executions.length

/-- Starts a step. The run is changed before anyone is told. -/
def activate (flow : Flow) (now : Instant) (step : Step) (fork : Option String) :
    Live (Option Execution) := do
  let i ← e.materialize flow step
  let r ← getRun
  match (r.executions[i]?).bind fun x => x.start? step fork r.dueAt now with
  | none => pure none
  | some x => do
    setRun fun r => { r with
      executions := r.executions.set i x
      currentStepIndex := x.stepIndex
      lastActivityAt := some now }
    if step.body.isPassThrough then pure (some x)
    else do
      let timers := match x.dueAt with
        | some due => e.engine.policy.reminders.timers due now
        | none => []
      e.announce x step r.dueAt timers
      pure (some x)

/-- Shows the notifier an execution as it is at that moment. -/
def tellStep (execution : String) : Live Unit := do
  let r ← getRun
  match r.find? execution with
  | none => pure ()
  | some x => tell e.listeners.notifier (.stepCompleted x.id x.stepId x.status)

/-- Tells of an execution that was completed. Its timers are cancelled, and the step is told of,
before the activity of the run is noted. -/
def tellCompleted (execution : String) (now : Instant) : Live Unit := do
  tell e.listeners.timers (.cancelAll execution)
  e.tellStep execution
  setRun fun r => { r with lastActivityAt := some now }
  tell e.listeners.notifier (.runActivity now)

def finish (execution : String) (result : Record) (told : Bool) (now : Instant) : Live Unit := do
  let r ← getRun
  match r.find? execution with
  | none => pure ()
  | some x =>
    match x.status.move? .completed with
    | none => pure ()
    | some _ => do
      setRun fun r => r.modify execution fun x => x.finish result now
      if told then e.tellCompleted execution now else pure ()

/-- Tells of a run that is over, with some executions left open. -/
def tellEnded (status : RunStatus) (left : List String) : Live Unit := do
  left.forM fun id => tell e.listeners.timers (.cancelAll id)
  if status = .completed then tell e.listeners.notifier (.flowCompleted status) else pure ()

def endRun (status : TerminateStatus) (now : Instant) : Live Unit := do
  let status : RunStatus := match status with
    | .completed => .completed
    | .cancelled => .cancelled
  setRun fun r =>
    { r with status := status, completedAt := some now, lastActivityAt := some now }
  let r ← getRun
  e.tellEnded r.status (Session.openExecutions r)

def plan (flow : Flow) (stepId : String) (result : Record) (fork : Option String) : Live Plan := do
  let t ← get
  let planned :=
    flow.outline.after e.engine.policy t.run (e.engine.newId "pg" t.drawn) stepId result
    fork
  set { t with
    drawn := t.drawn + (if planned.opened then 1 else 0)
    run := { t.run with forks := planned.forks } }
  pure planned.plan

section Way

variable (flow : Flow) (now : Instant) {weight : Nat}

def pass (t : Trip weight) (x : Execution) (step : Step) (fork : Option String) :
    Live (Trip weight) :=
  match h : t.budget with
  | 0 => pure t
  | budget + 1 => do
    e.finish x.id [] false now
    let plan ← e.plan flow step.id [] fork
    pure { t with
      budget := budget
      pending := t.pending ++ [plan]
      weighs := by
        have hweighs := t.weighs
        rw [List.length_append, List.length_singleton]
        omega }

def follow (t : Trip weight) (a : Activation) : Live (Trip weight) :=
  match flow.find? a.step with
  | none => pure t
  | some place => do
    let started ← e.activate flow now place.step a.fork
    match started with
    | none => pure t
    | some x =>
      if place.step.body.isPassThrough then e.pass flow now t x place.step a.fork
      else pure { t with advance := t.advance.activate x place.step }

/-- Carries out all plans, first come, first served, unless one of them ends the run. -/
def drive : (weight : Nat) → Trip weight → Live (Advance × Bool)
  | 0, t => pure (t.advance, t.exhausted)
  | weight + 1, t =>
    match h : t.pending with
    | [] => pure (t.advance, t.exhausted)
    | plan :: rest => do
      setRun fun r => { r with terminateStatus := plan.terminate.or r.terminateStatus }
      let exhausted := t.exhausted || plan.exhausted
      match plan.ending? with
      | some status => do
        e.endRun status now
        pure ({ t.advance with flowCompleted := t.advance.flowCompleted || status == .completed },
          exhausted)
      | none => do
        let marked : Trip weight := { t with
          pending := rest
          exhausted := exhausted
          weighs := by
            have hweighs := t.weighs
            rw [h, List.length_cons] at hweighs
            omega }
        let t ← plan.activations.foldlM (e.follow flow now) marked
        drive weight t

/-- Completes a run that went off the end of the main path. -/
def complete? (advance : Advance) (exhausted : Bool) : Live Advance := do
  let r ← getRun
  if exhausted && r.isActive then do
    e.endRun .completed now
    pure { advance with flowCompleted := true }
  else pure advance

/-- Hands an execution to a machine, if one carries it out. -/
def automate (execution : String) : Live Unit := do
  let r ← getRun
  match r.find? execution with
  | none => pure ()
  | some x =>
    match x.status, flow.find? x.stepId with
    | .inProgress, some place =>
      if e.engine.catalogue.autoCompletes place.step then
        tell e.listeners.automation (.automate x.id x.stepId)
      else pure ()
    | _, _ => pure ()

def propagate (flags : Flags) (plan : Plan) (advance : Advance) : Live Advance := do
  let (advance, exhausted) ← e.drive flow now _
    { advance := advance
      budget := e.engine.policy.chainLimit.toNat
      pending := [plan]
      exhausted := false
      weighs := rfl }
  let advance ← e.complete? now advance exhausted
  let r ← getRun
  if r.isActive && !flags.skipAutomation then do
    advance.activated.forM (e.automate flow)
    pure advance
  else pure advance

end Way

section Moves

variable (flow : Flow) (now : Instant)

def start (flags : Flags) : Live Advance := do
  let r ← getRun
  if !r.isActive || !r.executions.isEmpty then pure {}
  else do
    setRun fun r => { r with
      flowId := flow.id
      startedAt := some now
      lastActivityAt := some now
      dueAt := flow.due.bind fun d => d.ofRun now }
    flow.steps.forM fun step => do
      let _ ← e.materialize flow step
      pure ()
    match flow.steps with
    | [] => do
      e.endRun .completed now
      pure { completed := true, flowCompleted := true }
    | first :: _ =>
      e.propagate flow now flags { activations := [⟨first.id, none⟩] } { completed := true }

def accept (flags : Flags) (x : Execution) (result : Record) : Live Advance := do
  e.finish x.id result true now
  match flow.find? x.stepId with
  | none => pure { completed := true }
  | some _ => do
    let plan ← e.plan flow x.stepId result x.fork
    e.propagate flow now flags plan { completed := true }

/-- Has a submission reviewed, if its step asks for that. -/
def judge (flags : Flags) (x : Execution) (result : Record) : Live Verdict :=
  match flow.find? x.stepId with
  | some place => if flags.skipReview then pure .approved else e.review place.step result
  | none => pure .approved

def complete (flags : Flags) (execution : String) (result : Record) : Live Advance := do
  let r ← getRun
  match r.find? execution with
  | none => pure {}
  | some x =>
    if !x.status.isCompletable || !r.isActive then pure {}
    else do
      let verdict ← e.judge flow flags x result
      match verdict with
      | .approved => e.accept flow now flags x result
      | .revise feedback issues =>
        pure { revisionNeeded := true, feedback := feedback, issues := issues }

def conclude (flags : Flags) (x : Execution) (assignment : String) (result : Record) :
    Live Submission := do
  let advance ← e.complete flow now flags x.id (x.sharedResult result)
  let answer : Submission :=
    { advanced := advance.completed
      completed := x.submissions
      total := x.assignments.length
      advance := some advance }
  if advance.completed then do
    setRun fun r => r.modify x.id Execution.cancelPending
    pure answer
  else if advance.revisionNeeded then do
    setRun fun r => r.modify x.id fun x => x.reopen assignment
    let r ← getRun
    pure { answer with
      completed := ((r.find? x.id).map Execution.submissions).getD x.submissions }
  else pure answer

def submit (flags : Flags) (execution assignment : String) (result : Record) : Live Submission := do
  let r ← getRun
  match r.find? execution with
  | none => pure {}
  | some x =>
    if !x.isShared || !x.status.isCompletable then pure {}
    else
      match x.findAssignment? assignment with
      | none => pure { completed := x.submissions, total := x.assignments.length }
      | some a =>
        if a.status ≠ .pending then
          pure { completed := x.submissions, total := x.assignments.length }
        else do
          let x := x.submit assignment result now
          setRun fun r => { r.modify execution fun _ => x with lastActivityAt := some now }
          if x.isQuorate then e.conclude flow now flags x assignment result
          else do
            setRun fun r => r.modify execution Execution.await
            pure { completed := x.submissions, total := x.assignments.length }

def fail (execution reason : String) : Live Bool := do
  let r ← getRun
  match r.find? execution with
  | none => pure false
  | some x =>
    match x.status.isCompletable, x.status.move? .failed with
    | true, some status => do
      setRun fun r => r.modify execution fun x =>
        { x with status := status, failure := reason, completedAt := some now }
      tell e.listeners.timers (.cancelAll execution)
      pure true
    | _, _ => pure false

def escalate (execution : String) : Live Bool := do
  let r ← getRun
  match r.find? execution with
  | none => pure false
  | some x =>
    if x.status.isCompletable && x.escalatedAt.isNone then do
      setRun fun r => r.modify execution fun x => { x with escalatedAt := some now }
      pure true
    else pure false

/-- Makes a move, at one time as `Engine.play` does. -/
def play : Move → Live Answer
  | .start flags => Answer.advance <$> e.start flow now flags
  | .complete execution result flags =>
    Answer.advance <$> e.complete flow now flags execution result
  | .submit execution assignment result flags =>
    Answer.submission <$> e.submit flow now flags execution assignment result
  | .fail execution reason => Answer.done <$> e.fail now execution reason
  | .escalate execution => Answer.done <$> escalate now execution

end Moves

end LiveEngine

end Workflow
