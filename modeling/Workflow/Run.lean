import Workflow.Data
import Workflow.Instant
import Workflow.Sequence
import Workflow.StepType

namespace Workflow

inductive StepStatus where
  | pending
  | inProgress
  | waitingForAssignee
  | completed
  | failed
  deriving DecidableEq, Repr

namespace StepStatus

def name : StepStatus → String
  | .pending => "PENDING"
  | .inProgress => "IN_PROGRESS"
  | .waitingForAssignee => "WAITING_FOR_ASSIGNEE"
  | .completed => "COMPLETED"
  | .failed => "FAILED"

def isTerminal : StepStatus → Bool
  | .completed | .failed => true
  | _ => false

/-- Whether a submission is taken. Waiting for an assignee is a way of being in progress. -/
def isCompletable : StepStatus → Bool
  | .inProgress | .waitingForAssignee => true
  | _ => false

/-- Whether a step may go from one status to another; it may always stay. -/
def canMove (source target : StepStatus) : Bool :=
  source == target ||
    (!source.isTerminal &&
      match target with
      | .pending => false
      | .inProgress => source == .pending || source == .waitingForAssignee
      | .waitingForAssignee | .completed | .failed => source.isCompletable)

def move? (source target : StepStatus) : Option StepStatus :=
  if source.canMove target then some target else none

end StepStatus

inductive RunStatus where
  | active | completed | cancelled
  deriving DecidableEq, Repr

def RunStatus.name : RunStatus → String
  | .active => "ACTIVE"
  | .completed => "COMPLETED"
  | .cancelled => "CANCELLED"

/-- Contacts are outside and reach a step through a link of their own. -/
inductive AssigneeKind where
  | user | contact
  deriving DecidableEq, Repr

structure Assignee where
  kind : AssigneeKind := .user
  id : String := ""
  name : String := ""
  email : String := ""
  deriving DecidableEq, Repr

inductive AssignmentStatus where
  | pending | completed | cancelled
  deriving DecidableEq, Repr

def AssignmentStatus.name : AssignmentStatus → String
  | .pending => "PENDING"
  | .completed => "COMPLETED"
  | .cancelled => "CANCELLED"

structure Assignment where
  id : String
  assignee : Assignee
  status : AssignmentStatus := .pending
  result : Record := []
  completedAt : Option Instant := none

structure Execution where
  id : String
  stepId : String
  /-- The position of the step in its flow. It stands for a word of 32 bits, which holds it as long
  as a flow has fewer than 2^31 steps. -/
  stepIndex : Int := 0
  status : StepStatus := .pending
  assignee : Option Assignee := none
  result : Record := []
  startedAt : Option Instant := none
  completedAt : Option Instant := none
  dueAt : Option Instant := none
  escalatedAt : Option Instant := none
  fork : Option String := none
  isShared : Bool := false
  quorum : Quorum := .anyOne
  assignments : List Assignment := []
  failure : String := ""

/-- Several paths of a branch under way at once. Nothing goes on behind the branch before the fork
has joined, and nothing that finishes later goes on at all. -/
structure Fork where
  id : String
  branch : String
  parent : Option String
  paths : List String
  finished : List String
  join : Quorum
  joined : Bool
  deriving DecidableEq, Repr

/-- One passage through a flow. It holds an execution for every time that a step was reached or is
expected, and a fork for every time that a branch sent it down several paths at once. -/
structure Run where
  id : String := ""
  flowId : String := ""
  name : String := ""
  status : RunStatus := .active
  currentStepIndex : Int := 0
  kickoff : Record := []
  startedAt : Option Instant := none
  completedAt : Option Instant := none
  lastActivityAt : Option Instant := none
  dueAt : Option Instant := none
  terminateStatus : Option TerminateStatus := none
  executions : List Execution := []
  forks : List Fork := []

namespace Run

def find? (r : Run) (id : String) : Option Execution :=
  r.executions.find? fun e => e.id == id

def modify (r : Run) (id : String) (change : Execution → Execution) : Run :=
  { r with executions := Sequence.modifyFirst (fun e => e.id == id) change r.executions }

def latest? (r : Run) (stepId : String) : Option Execution :=
  r.executions.reverse.find? fun e => e.stepId == stepId

def findFork? (forks : List Fork) (id : String) : Option Fork :=
  forks.find? fun f => f.id == id

def isActive (r : Run) : Bool :=
  r.status == .active

end Run

end Workflow
