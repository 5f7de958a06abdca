import Workflow.Choice
import Workflow.Flow

/-!
Documents: flows in the form in which they are stored and exchanged. A document is one record with
all fields of all step types; which of them mean something is decided when it is taken for a flow.
A text that is not given is empty.
-/

namespace Workflow.Document

structure Due where
  kind : Choice DeadlineKind := .unset
  value : Int64 := 0
  unit : Choice DeadlineUnit := .unset
  date : Option Timestamp := none
  deriving DecidableEq, Repr

/-- A comparison; `value` stands in for `left` where that is empty. -/
structure Condition where
  comparison : Choice Comparison := .unset
  left : String := ""
  right : String := ""
  value : String := ""
  deriving DecidableEq, Repr

/-- A path over steps of type `σ`. Conditions are given alone, as a list, or both. -/
structure Path (σ : Type) where
  id : String := ""
  label : String := ""
  condition : Option Condition := none
  conditions : List Condition := []
  logic : Choice Logic := .unset
  steps : List σ := []

structure Outcome (σ : Type) where
  id : String := ""
  label : String := ""
  steps : List σ := []

structure Step where
  id : String := ""
  type : String := ""
  milestone : String := ""
  title : String := ""
  description : String := ""
  due : Option Due := none
  config : Record := []
  quorum : Choice Quorum := .unset
  review : Bool := false
  template : String := ""
  paths : List (Path Step) := []
  join : Choice Quorum := .unset
  outcomes : List (Outcome Step) := []
  target : String := ""
  label : String := ""
  status : Choice TerminateStatus := .unset

structure Flow where
  id : String := ""
  name : String := ""
  milestones : List Milestone := []
  steps : List Step := []
  due : Option Due := none

mutual

/-- Whether a document has a text: all dates and numbers in it have. -/
def Step.isPrintable : Step → Bool
  | ⟨_, _, _, _, _, due, config, _, _, _, paths, _, outcomes, _, _, _⟩ =>
    (due.bind Due.date).all Timestamp.isPrintable && Record.isFinite config &&
      Path.arePrintable paths && Outcome.arePrintable outcomes

def Path.arePrintable : List (Path Step) → Bool
  | [] => true
  | ⟨_, _, _, _, _, steps⟩ :: rest => Step.arePrintable steps && Path.arePrintable rest

def Outcome.arePrintable : List (Outcome Step) → Bool
  | [] => true
  | ⟨_, _, steps⟩ :: rest => Step.arePrintable steps && Outcome.arePrintable rest

def Step.arePrintable : List Step → Bool
  | [] => true
  | d :: rest => d.isPrintable && Step.arePrintable rest

end

def Flow.isPrintable (d : Flow) : Bool :=
  Step.arePrintable d.steps && (d.due.bind Due.date).all Timestamp.isPrintable

/-- A request for an edit: its name and all fields that edits take. -/
structure Request where
  name : String := ""
  after : String := ""
  before : String := ""
  stepId : String := ""
  step : Option Step := none
  updates : Record := []
  branch : String := ""
  pathId : String := ""
  path : Option (Path Step) := none
  condition : Option Condition := none
  conditions : List Condition := []
  logic : Choice Logic := .unset
  decision : String := ""
  outcomeId : String := ""
  outcome : Option (Outcome Step) := none
  label : String := ""
  status : Choice TerminateStatus := .unset
  target : String := ""
  milestone : Option Milestone := none
  milestoneId : String := ""
  newName : String := ""

inductive Payload where
  | paths | outcomes | target | label | status | template | quorum | review
  deriving DecidableEq, Repr

inductive Refusal where
  /-- The text, or the shape of what it holds, is not that of a document. -/
  | malformed (what : String)
  | unknownType (step type : String)
  | misplaced (step : String) (payload : Payload)
  | comparisonRequired
  | dateRequired
  | unknownRequest (name : String)
  | fieldRequired (request field : String)
  | fieldFixed (request field : String)
  | textExpected (request field : String)
  | booleanExpected (request : String)
  | objectExpected (request field : String)
  | numberExpected (request : String)
  | unknownQuorum (request : String)
  | unknownMilestoneField (request field : String)
  /-- Something holds a value that has no written form. -/
  | unprintable (what : String)
  deriving DecidableEq, Repr

def Payload.message : Payload → String
  | .paths => "paths/joinMode only apply to branch steps"
  | .outcomes => "outcomes only apply to DECISION steps"
  | .target => "targetGotoDestinationId only applies to GOTO steps"
  | .label => "label only applies to GOTO_DESTINATION steps"
  | .status => "status only applies to TERMINATE steps"
  | .template => "flowTemplateId only applies to SUB_FLOW steps"
  | .quorum => "completionMode only applies to action steps"
  | .review => "aiReview only applies to action steps"

def Refusal.wording : Refusal → String
  | .malformed what => "invalid " ++ what ++ " JSON"
  | .unknownType step type => "step " ++ step ++ ": unknown step type: " ++ type
  | .misplaced step payload => "step " ++ step ++ ": " ++ payload.message
  | .comparisonRequired => "condition type is required"
  | .dateRequired => "FIXED due date requires a date"
  | .unknownRequest name => "unknown operation: " ++ name
  | .fieldRequired request field => request ++ " requires " ++ field
  | .fieldFixed request field => request ++ " cannot change " ++ field
  | .textExpected request field => request ++ ": " ++ field ++ " must be a string"
  | .booleanExpected request => request ++ ": aiReview must be a boolean"
  | .objectExpected request field => request ++ ": " ++ field ++ " must be an object"
  | .numberExpected request => request ++ ": sequence must be a number"
  | .unknownQuorum request => request ++ ": invalid completionMode"
  | .unknownMilestoneField request field => request ++ ": unknown milestone field " ++ field
  | .unprintable what => "failed to serialize " ++ what ++ ": value has no JSON form"

/-- The text of a refusal, which ends at the first NUL in it. -/
def Refusal.message (r : Refusal) : String :=
  Text.untilNul r.wording

end Workflow.Document
