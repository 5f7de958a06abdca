import Workflow.Data
import Workflow.Deadline
import Workflow.StepType

/-!
Flows: a tree of steps. The steps of the main path may be branches, whose paths hold steps again,
and decisions, whose outcomes do.
-/

namespace Workflow

inductive Comparison where
  | equals | notEquals | contains | notContains | greaterThan | lessThan
  | isEmpty | notEmpty | isIn | notIn | otherwise
  deriving DecidableEq, Repr

/-- One comparison. Both sides are literals or tokens such as `{result.amount}`. -/
structure Clause where
  comparison : Comparison
  left : String
  right : String
  deriving DecidableEq, Repr

inductive Logic where
  | all | any
  deriving DecidableEq, Repr

structure Guard where
  logic : Logic := .all
  clauses : List Clause := []
  deriving DecidableEq, Repr

/-- A guard that is nothing but the fallback clause. -/
def Guard.isOtherwise (g : Guard) : Bool :=
  match g.clauses with
  | [c] => c.comparison == .otherwise
  | _ => false

inductive BranchKind where
  | singleChoice | multiChoice | parallel
  deriving DecidableEq, Repr

structure Path (σ : Type) where
  id : String
  label : String
  guard : Guard
  steps : List σ

/-- An outcome of a decision over steps of type `σ`. -/
structure Outcome (σ : Type) where
  id : String
  label : String
  steps : List σ

/-- What a step does, over nested steps of type `σ`. -/
inductive Body (σ : Type) where
  | action (type : ActionType) (quorum : Quorum) (review : Bool)
  | subFlow (template : String) (quorum : Quorum)
  | branch (kind : BranchKind) (join : Quorum) (paths : List (Path σ))
  | decision (outcomes : List (Outcome σ))
  | goto (target : String)
  | gotoDestination (label : String)
  | terminate (status : TerminateStatus)

structure Step where
  id : String
  milestone : String
  title : String
  description : String
  due : Option Deadline
  config : Record
  body : Body Step

structure Milestone where
  id : String
  name : String
  sequence : Int
  deriving DecidableEq, Repr

structure Flow where
  id : String
  name : String
  milestones : List Milestone
  steps : List Step
  due : Option Deadline

def BranchKind.type : BranchKind → StepType
  | .singleChoice => .singleChoiceBranch
  | .multiChoice => .multiChoiceBranch
  | .parallel => .parallelBranch

def Body.type {σ : Type} : Body σ → StepType
  | .action type _ _ => type.val
  | .subFlow _ _ => .subFlow
  | .branch kind _ _ => kind.type
  | .decision _ => .decision
  | .goto _ => .goto
  | .gotoDestination _ => .gotoDestination
  | .terminate _ => .terminate

def Body.quorum {σ : Type} : Body σ → Quorum
  | .action _ quorum _ => quorum
  | .subFlow _ quorum => quorum
  | _ => .anyOne

def Body.isPassThrough {σ : Type} : Body σ → Bool
  | .goto _ | .gotoDestination _ | .terminate _ => true
  | _ => false

/-- Whether submissions are reviewed before they count. -/
def Body.isReviewed {σ : Type} : Body σ → Bool
  | .action _ _ review => review
  | _ => false

def Body.ofType {σ : Type} (type : StepType) : Body σ :=
  if h : type.isAction = true then .action ⟨type, h⟩ .anyOne false
  else match type with
    | .decision => .decision []
    | .multiChoiceBranch => .branch .multiChoice .all []
    | .parallelBranch => .branch .parallel .all []
    | .goto => .goto ""
    | .gotoDestination => .gotoDestination ""
    | .terminate => .terminate .completed
    | .subFlow => .subFlow "" .anyOne
    | _ => .branch .singleChoice .all []

namespace Step

def type (s : Step) : StepType :=
  s.body.type

def category (s : Step) : StepCategory :=
  s.type.category

def ofType (id : String) (type : StepType) : Step :=
  ⟨id, "", "", "", none, [], .ofType type⟩

end Step

def Flow.empty (id name : String) : Flow :=
  ⟨id, name, [⟨"ms_default", "Main Process", 1⟩], [], none⟩

theorem Body.type_ofType {σ : Type} (type : StepType) :
    (Body.ofType type : Body σ).type = type := by
  cases type <;> rfl

end Workflow
