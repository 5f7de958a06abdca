import Workflow.Instant

namespace Workflow

inductive DeadlineKind where
  | relative
  | fixed
  | beforeFlowDue
  deriving DecidableEq, Repr

inductive DeadlineUnit where
  | hours | days | weeks
  deriving DecidableEq, Repr

def DeadlineUnit.inHours : DeadlineUnit → Int64
  | .hours => 1
  | .days => 24
  | .weeks => 168

/-- When something is due. Only a fixed deadline uses its date. -/
structure Deadline where
  kind : DeadlineKind
  value : Int64
  unit : DeadlineUnit
  date : Option Instant
  deriving DecidableEq, Repr

namespace Deadline

/-- Whether a deadline can be read back from its document: a fixed one has to have a date. -/
def isDated (d : Deadline) : Bool :=
  d.kind != .fixed || d.date.isSome

def hours (d : Deadline) : Int64 :=
  d.unit.inHours * d.value

/-- When a step that starts at `start` is due: a positive time after its start, at a fixed date, or
some time before the run is due. -/
def ofStep (d : Deadline) (start : Instant) (flowDue : Option Instant) : Option Instant :=
  match d.kind with
  | .fixed => d.date
  | .beforeFlowDue => flowDue.map fun due => due.subHours d.hours
  | .relative => if d.value ≤ 0 then none else some (start.addHours d.hours)

/-- When a run that starts at `start` is due. It cannot be due before itself. -/
def ofRun (d : Deadline) (start : Instant) : Option Instant :=
  match d.kind with
  | .beforeFlowDue => none
  | _ => d.ofStep start none

end Deadline

inductive TimerKind where
  | reminder
  | overdue
  | escalation
  deriving DecidableEq, Repr

def TimerKind.name : TimerKind → String
  | .reminder => "reminder"
  | .overdue => "overdue"
  | .escalation => "escalation"

structure Timer where
  kind : TimerKind
  fireAt : Instant
  deriving DecidableEq, Repr

structure ReminderPolicy where
  remind : Bool := true
  remindDays : UInt32 := 1
  overdue : Bool := true
  escalateDays : Option UInt32 := none
  deriving DecidableEq, Repr

def daysInHours (days : UInt32) : Int64 :=
  24 * days.toUInt64.toInt64

/-- The timers of a step due at `due`. A reminder that lies in the past is left out. -/
def ReminderPolicy.timers (p : ReminderPolicy) (due now : Instant) : List Timer :=
  let remindAt := due.subHours (daysInHours p.remindDays)
  (if p.remind && remindAt.isAfter now then [⟨.reminder, remindAt⟩] else [])
    ++ (if p.overdue then [⟨.overdue, due⟩] else [])
    ++ match p.escalateDays with
      | some days => [⟨.escalation, due.addHours (daysInHours days)⟩]
      | none => []

end Workflow
