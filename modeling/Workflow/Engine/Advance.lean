import Workflow.Engine.Activation

namespace Workflow

/-- How a call moved a run. -/
structure Advance where
  /-- Whether the run started, or the submission was taken. -/
  completed : Bool := false
  revisionNeeded : Bool := false
  flowCompleted : Bool := false
  feedback : String := ""
  issues : List String := []
  nextStep : Option String := none
  /-- The executions that wait for someone now. -/
  activated : List String := []
  deriving DecidableEq, Repr

def Advance.activate (a : Advance) (x : Execution) (step : Step) : Advance :=
  { a with activated := a.activated ++ [x.id], nextStep := a.nextStep.or (some step.id) }

structure Flags where
  skipReview : Bool := false
  /-- Set by a machine that completes a step, so that it is not called from within its own call. -/
  skipAutomation : Bool := false
  deriving DecidableEq, Repr

/-- A run on its way. Each pending plan was paid for from the budget. -/
structure Motion where
  session : Session
  advance : Advance
  budget : Nat
  pending : List Plan
  exhausted : Bool := false

def Motion.weight (m : Motion) : Nat :=
  m.budget + m.pending.length

namespace Engine

/-- Passes a step that is over as soon as it started. -/
def pass (e : Engine) (flow : Flow) (now : Instant) (m : Motion) (x : Execution) (step : Step)
    (fork : Option String) : Motion :=
  match m.budget with
  | 0 => m
  | budget + 1 =>
    let s := m.session.finish x.id [] now
    let planned := flow.outline.after e.policy s.run (e.nextId s "pg") step.id [] fork
    { m with
      session := { s.draw (if planned.opened then 1 else 0) with run.forks := planned.forks }
      budget := budget
      pending := m.pending ++ [planned.plan] }

/-- Starts one of the steps of a plan; a step that the flow does not have is left out. -/
def follow (e : Engine) (flow : Flow) (now : Instant) (m : Motion) (a : Activation) : Motion :=
  match flow.find? a.step with
  | none => m
  | some place =>
    let step := place.step
    match e.activate flow now m.session step a.fork with
    | (s, none) => { m with session := s }
    | (s, some x) =>
      let m := { m with session := s }
      if step.body.isPassThrough then e.pass flow now m x step a.fork
      else { m with advance := m.advance.activate x step }

def followAll (e : Engine) (flow : Flow) (now : Instant) (m : Motion) (as : List Activation) :
    Motion :=
  as.foldl (e.follow flow now) m

theorem weight_pass (e : Engine) (flow : Flow) (now : Instant) (m : Motion) (x : Execution)
    (step : Step) (fork : Option String) : (e.pass flow now m x step fork).weight = m.weight := by
  unfold pass
  split
  · rfl
  · rename_i h
    simp only [Motion.weight, h, List.length_append, List.length_singleton]
    omega

theorem weight_follow (e : Engine) (flow : Flow) (now : Instant) (m : Motion) (a : Activation) :
    (e.follow flow now m a).weight = m.weight := by
  unfold follow
  split
  · rfl
  · dsimp only
    split
    · rfl
    · split
      · rw [weight_pass]
        rfl
      · rfl

theorem weight_followAll (e : Engine) (flow : Flow) (now : Instant) (as : List Activation)
    (m : Motion) : (e.followAll flow now m as).weight = m.weight := by
  induction as generalizing m with
  | nil => rfl
  | cons a rest ih => exact (ih _).trans (weight_follow e flow now m a)

end Engine

/-- Takes note of what a plan says of the run's end. -/
def Motion.mark (m : Motion) (p : Plan) : Motion :=
  { m with
    session.run.terminateStatus := p.terminate.or m.session.run.terminateStatus
    exhausted := m.exhausted || p.exhausted }

def Motion.endRun (m : Motion) (status : TerminateStatus) (now : Instant) : Motion :=
  { m with
    session := m.session.endRun status now
    advance.flowCompleted := m.advance.flowCompleted || status == .completed }

namespace Engine

/-- Carries out all plans, first come, first served, unless one of them ends the run. -/
def drive (e : Engine) (flow : Flow) (now : Instant) (m : Motion) : Motion :=
  match _h : m.pending with
  | [] => m
  | plan :: rest =>
    let marked := { m with pending := rest }.mark plan
    match plan.ending? with
    | some status => marked.endRun status now
    | none => e.drive flow now (e.followAll flow now marked plan.activations)
termination_by m.weight
decreasing_by
  rw [weight_followAll]
  simp [Motion.weight, Motion.mark, _h]

/-- Hands those of some executions to machines that machines carry out. -/
def automate (e : Engine) (flow : Flow) (s : Session) (executions : List String) : Session :=
  executions.foldl
    (fun s id =>
      match s.run.find? id with
      | some x =>
        match x.status, flow.find? x.stepId with
        | .inProgress, some place =>
          if e.catalogue.autoCompletes place.step then s.note (.automated x.id x.stepId) else s
        | _, _ => s
      | none => s)
    s

/-- Moves a run on by a plan. A run that went off the end of the main path is complete, though only
once all that was planned is under way. -/
def propagate (e : Engine) (flow : Flow) (now : Instant) (flags : Flags) (s : Session) (plan : Plan)
    (advance : Advance) : Session × Advance :=
  let m := e.drive flow now
    { session := s, advance := advance, budget := e.policy.chainLimit.toNat, pending := [plan] }
  let m := if m.exhausted && m.session.run.isActive then m.endRun .completed now else m
  let s := m.session
  if s.run.isActive && !flags.skipAutomation then (e.automate flow s m.advance.activated, m.advance)
  else (s, m.advance)

/-- Starts a fresh run: all steps of the main path are expected and the first one starts. -/
def start (e : Engine) (flow : Flow) (now : Instant) (flags : Flags) (s : Session) :
    Session × Advance :=
  if !s.run.isActive || !s.run.executions.isEmpty then (s, {})
  else
    let s := { s with run := { s.run with
      flowId := flow.id
      startedAt := some now
      lastActivityAt := some now
      dueAt := flow.due.bind fun d => d.ofRun now } }
    let s := flow.steps.foldl (fun s step => (e.materialize flow s step).1) s
    match flow.steps with
    | [] => (s.endRun .completed now, { completed := true, flowCompleted := true })
    | first :: _ =>
      e.propagate flow now flags s { activations := [⟨first.id, none⟩] } { completed := true }

def accept (e : Engine) (flow : Flow) (now : Instant) (flags : Flags) (s : Session) (x : Execution)
    (result : Record) : Session × Advance :=
  let s := s.finish x.id result now
  let s := { s with run.lastActivityAt := some now }.note
    (.completed x.id x.stepId (x.finish result now).status now)
  match flow.find? x.stepId with
  | none => (s, { completed := true })
  | some _ =>
    let planned := flow.outline.after e.policy s.run (e.nextId s "pg") x.stepId result x.fork
    let s := { s.draw (if planned.opened then 1 else 0) with run.forks := planned.forks }
    e.propagate flow now flags s planned.plan { completed := true }

/-- Completes a step with a result, after a review if the step asks for one. Nothing is changed
before the review approves. -/
def complete (e : Engine) (flow : Flow) (now : Instant) (flags : Flags) (s : Session)
    (execution : String) (result : Record) : Session × Advance :=
  match s.run.find? execution with
  | none => (s, {})
  | some x =>
    if !x.status.isCompletable || !s.run.isActive then (s, {})
    else
      let (s, verdict) : Session × Verdict := match flow.find? x.stepId with
        | some place => if flags.skipReview then (s, .approved) else e.review s place.step result
        | none => (s, .approved)
      match verdict with
      | .approved => e.accept flow now flags s x result
      | .revise feedback issues =>
        (s, { revisionNeeded := true, feedback := feedback, issues := issues })

end Engine

namespace Session

/-- Marks a step as failed beyond repair; whether it was under way. -/
def fail (s : Session) (execution reason : String) (now : Instant) : Session × Bool :=
  match s.run.find? execution with
  | none => (s, false)
  | some x =>
    match x.status.isCompletable, x.status.move? .failed with
    | true, some status =>
      let run := s.run.modify execution fun x =>
        { x with status := status, failure := reason, completedAt := some now }
      ({ s with run := run }.note (.failed execution), true)
    | _, _ => (s, false)

/-- Notes once that a step was escalated; whether it was under way and not escalated yet. -/
def escalate (s : Session) (execution : String) (now : Instant) : Session × Bool :=
  match s.run.find? execution with
  | none => (s, false)
  | some x =>
    if x.status.isCompletable && x.escalatedAt.isNone then
      let run := s.run.modify execution fun x => { x with escalatedAt := some now }
      ({ s with run := run }, true)
    else (s, false)

end Session

end Workflow
