import Workflow.Engine.Advance

namespace Workflow

structure Submission where
  advanced : Bool := false
  completed : Nat := 0
  total : Nat := 0
  /-- How the run moved, once the quorum was met. -/
  advance : Option Advance := none
  deriving DecidableEq, Repr

namespace Execution

def submissions (x : Execution) : Nat :=
  (x.assignments.filter fun a => a.status == .completed).length

def findAssignment? (x : Execution) (id : String) : Option Assignment :=
  x.assignments.find? fun a => a.id == id

def modifyAssignment (x : Execution) (id : String) (change : Assignment → Assignment) :
    Execution :=
  { x with assignments := Sequence.modifyFirst (fun a => a.id == id) change x.assignments }

def isQuorate (x : Execution) : Bool :=
  x.quorum.isSatisfied x.submissions x.assignments.length

theorem submissions_le (x : Execution) : x.submissions ≤ x.assignments.length :=
  List.length_filter_le _ _

/-- Counting assignments in words comes to the same. -/
theorem isQuorate_eq_word (x : Execution) (h : x.assignments.length < 9223372036854775808) :
    x.isQuorate = x.quorum.isSatisfiedWord (UInt64.ofNat x.submissions)
      (UInt64.ofNat x.assignments.length) :=
  x.quorum.isSatisfied_eq_word (Nat.lt_of_le_of_lt x.submissions_le h) h

def summary (x : Execution) : Value :=
  let made := x.assignments.filter fun a => a.status == .completed
  .record
    [("completedAssignees", .number (Float.ofNat made.length)),
     ("mode", .text x.quorum.name),
     ("submissions", .list (made.map fun a => .record
       [("assigneeId", .text a.assignee.id),
        ("assignmentId", .text a.id),
        ("resultData", .record a.result)])),
     ("totalAssignees", .number (Float.ofNat x.assignments.length))]

/-- The result of a shared step: that of the last submission, and the summary. -/
def sharedResult (x : Execution) (last : Record) : Record :=
  Table.put "_groupCompletion" x.summary last

def submit (x : Execution) (assignment : String) (result : Record) (now : Instant) : Execution :=
  x.modifyAssignment assignment fun a =>
    { a with status := .completed, result := result, completedAt := some now }

/-- Opens an assignment again, as if nothing had been submitted. -/
def reopen (x : Execution) (assignment : String) : Execution :=
  x.modifyAssignment assignment fun a =>
    { a with status := .pending, result := [], completedAt := none }

/-- Cancels the assignments that nobody has to do any more. -/
def cancelPending (x : Execution) : Execution :=
  { x with
    assignments := x.assignments.map fun a =>
      if a.status = .pending then { a with status := .cancelled } else a }

def await (x : Execution) : Execution :=
  { x with status := (x.status.move? .waitingForAssignee).getD x.status }

end Execution

namespace Engine

/-- Completes a step whose quorum was just met by an assignment. If a revision is asked for, the
assignment is open again. -/
def conclude (e : Engine) (flow : Flow) (now : Instant) (flags : Flags) (s : Session)
    (x : Execution) (assignment : String) (result : Record) : Session × Submission :=
  let (s, advance) := e.complete flow now flags s x.id (x.sharedResult result)
  let answer : Submission :=
    { advanced := advance.completed
      completed := x.submissions
      total := x.assignments.length
      advance := some advance }
  if advance.completed then
    ({ s with run := s.run.modify x.id Execution.cancelPending }, answer)
  else if advance.revisionNeeded then
    let s := { s with run := s.run.modify x.id fun x => x.reopen assignment }
    (s, { answer with
      completed := ((s.run.find? x.id).map Execution.submissions).getD x.submissions })
  else (s, answer)

/-- Takes one assignee's submission to a shared step. -/
def submit (e : Engine) (flow : Flow) (now : Instant) (flags : Flags) (s : Session)
    (execution assignment : String) (result : Record) : Session × Submission :=
  match s.run.find? execution with
  | none => (s, {})
  | some x =>
    if !x.isShared || !x.status.isCompletable then (s, {})
    else
      match x.findAssignment? assignment with
      | none => (s, { completed := x.submissions, total := x.assignments.length })
      | some a =>
        if a.status ≠ .pending then
          (s, { completed := x.submissions, total := x.assignments.length })
        else
          let x := x.submit assignment result now
          let run := s.run.modify execution fun _ => x
          let s := { s with run := { run with lastActivityAt := some now } }
          if x.isQuorate then e.conclude flow now flags s x assignment result
          else
            ({ s with run := s.run.modify execution Execution.await },
              { completed := x.submissions, total := x.assignments.length })

end Engine

end Workflow
