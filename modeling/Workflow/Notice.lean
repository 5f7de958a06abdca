import Workflow.Deadline
import Workflow.Flow
import Workflow.Run

/-!
Notices: what a run has to tell the world, and the listeners that are told. A listener may refuse
a call; the refusal is kept with the call and changes nothing else.
-/

namespace Workflow

/-- The answer of someone outside, or why there is none. -/
abbrev Reply (α : Type) := Except String α

def Reply.failure? {α : Type} : Reply α → Option String
  | .ok _ => none
  | .error e => some e

inductive Notice where
  /-- Assignees of a step were asked for. -/
  | resolved (step : String) (failure : Option String)
  /-- A submission to a step was reviewed. -/
  | reviewed (step : String) (failure : Option String)
  | activated (execution : Execution) (step : Step) (flowDue : Option Instant) (timers : List Timer)
  /-- An execution was completed, and has this status since. -/
  | completed (execution step : String) (status : StepStatus) (time : Instant)
  | failed (execution : String)
  /-- The run is over; some executions are left open. -/
  | ended (status : RunStatus) (left : List String)
  /-- An execution can be carried out by a machine. -/
  | automated (execution step : String)

inductive Event where
  | resolve (step : String)
  | review (step : String)
  | schedule (execution : String) (timer : Timer)
  | cancelAll (execution : String)
  | stepActivated (execution step : String) (hasDeadline : Bool) (flowDue : Option Instant)
  | stepCompleted (execution step : String) (status : StepStatus)
  | runActivity (time : Instant)
  | flowCompleted (status : RunStatus)
  | subFlow (execution template : String)
  | token (execution : String) (hours : UInt32)
  | email (address token step : String)
  | automate (execution step : String)
  deriving DecidableEq, Repr

structure Call where
  event : Event
  failure : Option String := none
  deriving DecidableEq, Repr

/-- Someone who is told things; the reply may depend on all calls made before. -/
abbrev Listener (α : Type) := List Call → Event → Reply α

/-- Who is told what. Whoever is missing is not told. -/
structure Listeners where
  notifier : Option (Listener Unit) := none
  timers : Option (Listener Unit) := none
  subFlows : Option (Listener Unit) := none
  /-- Gives out the tokens that let contacts in. -/
  links : Option (Listener String) := none
  email : Option (Listener Unit) := none
  automation : Option (Listener Unit) := none

def Listener.hear {α : Type} (l : Option (Listener α)) (calls : List Call) (e : Event) :
    List Call :=
  match l with
  | none => calls
  | some answer => calls ++ [⟨e, (answer calls e).failure?⟩]

/-- The contacts among those an execution is assigned to. -/
def Execution.contacts (x : Execution) : List Assignee :=
  (x.assignee.toList ++ x.assignments.map Assignment.assignee).filter fun a => a.kind == .contact

namespace Listeners

/-- Gives a contact a token of its own, and mails it if there is an address. -/
def sendLink (l : Listeners) (hours : UInt32) (execution step : String) (calls : List Call)
    (contact : Assignee) : List Call :=
  match l.links with
  | none => calls
  | some answer =>
    let event := Event.token execution hours
    let reply := answer calls event
    let calls := calls ++ [⟨event, reply.failure?⟩]
    match reply with
    | .error _ => calls
    | .ok token =>
      if token = "" ∨ contact.email = "" then calls
      else Listener.hear l.email calls (.email contact.email token step)

def startSubFlow (l : Listeners) (execution : String) (s : Step) (calls : List Call) : List Call :=
  match s.body with
  | .subFlow template _ => Listener.hear l.subFlows calls (.subFlow execution template)
  | _ => calls

/-- Makes the calls that a notice is worth, after those made before. Links are good for `hours`. -/
def tell (l : Listeners) (hours : UInt32) (calls : List Call) : Notice → List Call
  | .resolved step failure => calls ++ [⟨.resolve step, failure⟩]
  | .reviewed step failure => calls ++ [⟨.review step, failure⟩]
  | .activated x s flowDue timers =>
    let calls := timers.foldl (fun calls t => Listener.hear l.timers calls (.schedule x.id t)) calls
    let calls := Listener.hear l.notifier calls (.stepActivated x.id s.id s.due.isSome flowDue)
    let calls := l.startSubFlow x.id s calls
    x.contacts.foldl (l.sendLink hours x.id s.id) calls
  | .completed execution step status time =>
    let calls := Listener.hear l.timers calls (.cancelAll execution)
    let calls := Listener.hear l.notifier calls (.stepCompleted execution step status)
    Listener.hear l.notifier calls (.runActivity time)
  | .failed execution => Listener.hear l.timers calls (.cancelAll execution)
  | .ended status left =>
    let calls := left.foldl (fun calls id => Listener.hear l.timers calls (.cancelAll id)) calls
    if status = .completed then Listener.hear l.notifier calls (.flowCompleted status) else calls
  | .automated execution step => Listener.hear l.automation calls (.automate execution step)

def tellAll (l : Listeners) (hours : UInt32) (calls : List Call) (notices : List Notice) :
    List Call :=
  notices.foldl (l.tell hours) calls

end Listeners

end Workflow
