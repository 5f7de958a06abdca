import Workflow.Calendar
import Workflow.Data.Written
import Workflow.Document
import Workflow.Json.Field
import Workflow.Json.Reader

namespace Workflow.Document

open Json (Setter setter readFields readObject items? text? bool? int32? int64? choice?)

def quorum? : Json → Option (Choice Quorum) :=
  choice? "COMPLETION_MODE_UNSPECIFIED"
    [("ANY_ONE", .anyOne), ("ALL", .all), ("MAJORITY", .majority)]

def status? : Json → Option (Choice TerminateStatus) :=
  choice? "TERMINATE_STATUS_UNSPECIFIED" [("COMPLETED", .completed), ("CANCELLED", .cancelled)]

def logic? : Json → Option (Choice Logic) :=
  choice? "CONDITION_LOGIC_UNSPECIFIED" [("ALL", .all), ("ANY", .any)]

def deadlineKind? : Json → Option (Choice DeadlineKind) :=
  choice? "DUE_TYPE_UNSPECIFIED"
    [("RELATIVE", .relative), ("FIXED", .fixed), ("BEFORE_FLOW_DUE", .beforeFlowDue)]

def deadlineUnit? : Json → Option (Choice DeadlineUnit) :=
  choice? "DUE_UNIT_UNSPECIFIED" [("HOURS", .hours), ("DAYS", .days), ("WEEKS", .weeks)]

def comparison? : Json → Option (Choice Comparison) :=
  choice? "CONDITION_TYPE_UNSPECIFIED"
    [("EQUALS", .equals), ("NOT_EQUALS", .notEquals), ("CONTAINS", .contains),
     ("NOT_CONTAINS", .notContains), ("GREATER_THAN", .greaterThan), ("LESS_THAN", .lessThan),
     ("IS_EMPTY", .isEmpty), ("NOT_EMPTY", .notEmpty), ("IN", .isIn), ("NOT_IN", .notIn),
     ("ELSE", .otherwise)]

def date? (j : Json) : Option Timestamp :=
  j.text?.bind Calendar.read?

def Due.setter? : String → Option (Setter Due)
  | "type" => setter deadlineKind? fun d x => { d with kind := x }
  | "value" => setter int64? fun d x => { d with value := x }
  | "unit" => setter deadlineUnit? fun d x => { d with unit := x }
  | "date" => setter date? fun d x => { d with date := some x }
  | _ => none

def Due.read? : Json → Option Due :=
  readObject Due.setter? {}

def Condition.setter? : String → Option (Setter Condition)
  | "type" => setter comparison? fun c x => { c with comparison := x }
  | "left" => setter text? fun c x => { c with left := x }
  | "right" => setter text? fun c x => { c with right := x }
  | "value" => setter text? fun c x => { c with value := x }
  | _ => none

def Condition.read? : Json → Option Condition :=
  readObject Condition.setter? {}

def Milestone.setter? : String → Option (Setter Milestone)
  | "milestoneId" | "milestone_id" => setter text? fun m x => { m with id := x }
  | "name" => setter text? fun m x => { m with name := x }
  | "sequence" => setter int32? fun m x => { m with sequence := x }
  | _ => none

def Milestone.read? : Json → Option Milestone :=
  readObject Milestone.setter? ⟨"", "", 0⟩

def Path.setter? : String → Option (Setter (Path Step))
  | "pathId" | "path_id" => setter text? fun p x => { p with id := x }
  | "label" => setter text? fun p x => { p with label := x }
  | "condition" => setter Condition.read? fun p x => { p with condition := some x }
  | "conditions" => setter (items? Condition.read?) fun p x => { p with conditions := x }
  | "conditionLogic" | "condition_logic" => setter logic? fun p x => { p with logic := x }
  | _ => none

def Outcome.setter? : String → Option (Setter (Outcome Step))
  | "outcomeId" | "outcome_id" => setter text? fun o x => { o with id := x }
  | "label" => setter text? fun o x => { o with label := x }
  | _ => none

/-- The fields of a step but its paths and outcomes. -/
def Step.setter? : String → Option (Setter Step)
  | "stepId" | "step_id" => setter text? fun s x => { s with id := x }
  | "type" => setter text? fun s x => { s with type := x }
  | "milestoneId" | "milestone_id" => setter text? fun s x => { s with milestone := x }
  | "title" => setter text? fun s x => { s with title := x }
  | "description" => setter text? fun s x => { s with description := x }
  | "due" => setter Due.read? fun s x => { s with due := some x }
  | "config" => setter Record.ofJson? fun s x => { s with config := x }
  | "completionMode" | "completion_mode" => setter quorum? fun s x => { s with quorum := x }
  | "aiReview" | "ai_review" => setter bool? fun s x => { s with review := x }
  | "flowTemplateId" | "flow_template_id" => setter text? fun s x => { s with template := x }
  | "joinMode" | "join_mode" => setter quorum? fun s x => { s with join := x }
  | "targetGotoDestinationId" | "target_goto_destination_id" =>
    setter text? fun s x => { s with target := x }
  | "label" => setter text? fun s x => { s with label := x }
  | "status" => setter status? fun s x => { s with status := x }
  | _ => none

def plain {σ : Type} (setter? : String → Option (Setter σ)) (name : String) (j : Json)
    (value : σ) :
    Option σ :=
  readFields setter? [(name, j)] value

mutual

def Step.read? : Json → Option Step
  | .object fields => Step.readFields fields {}
  | _ => none

def Step.readFields : List (String × Json) → Step → Option Step
  | [], s => some s
  | (name, j) :: rest, s =>
    if name = "paths" then do
      let paths ← Path.readAll j
      Step.readFields rest { s with paths := paths }
    else if name = "outcomes" then do
      let outcomes ← Outcome.readAll j
      Step.readFields rest { s with outcomes := outcomes }
    else do
      let s ← plain Step.setter? name j s
      Step.readFields rest s

def Path.readAll : Json → Option (List (Path Step))
  | .null => some []
  | .array items => Path.readItems items
  | _ => none

def Path.readItems : List Json → Option (List (Path Step))
  | [] => some []
  | j :: rest => do
    let p ← Path.read? j
    let ps ← Path.readItems rest
    some (p :: ps)

def Path.read? : Json → Option (Path Step)
  | .object fields => Path.readFields fields {}
  | _ => none

def Path.readFields : List (String × Json) → Path Step → Option (Path Step)
  | [], p => some p
  | (name, j) :: rest, p =>
    if name = "steps" then do
      let steps ← Step.readAll j
      Path.readFields rest { p with steps := steps }
    else do
      let p ← plain Path.setter? name j p
      Path.readFields rest p

def Outcome.readAll : Json → Option (List (Outcome Step))
  | .null => some []
  | .array items => Outcome.readItems items
  | _ => none

def Outcome.readItems : List Json → Option (List (Outcome Step))
  | [] => some []
  | j :: rest => do
    let o ← Outcome.read? j
    let os ← Outcome.readItems rest
    some (o :: os)

def Outcome.read? : Json → Option (Outcome Step)
  | .object fields => Outcome.readFields fields {}
  | _ => none

def Outcome.readFields : List (String × Json) → Outcome Step → Option (Outcome Step)
  | [], o => some o
  | (name, j) :: rest, o =>
    if name = "steps" then do
      let steps ← Step.readAll j
      Outcome.readFields rest { o with steps := steps }
    else do
      let o ← plain Outcome.setter? name j o
      Outcome.readFields rest o

def Step.readAll : Json → Option (List Step)
  | .null => some []
  | .array items => Step.readItems items
  | _ => none

def Step.readItems : List Json → Option (List Step)
  | [] => some []
  | j :: rest => do
    let s ← Step.read? j
    let ss ← Step.readItems rest
    some (s :: ss)

end

def Flow.setter? : String → Option (Setter Flow)
  | "flowId" | "flow_id" => setter text? fun f x => { f with id := x }
  | "name" => setter text? fun f x => { f with name := x }
  | "milestones" => setter (items? Milestone.read?) fun f x => { f with milestones := x }
  | "steps" => setter Step.readAll fun f x => { f with steps := x }
  | "dueDate" | "due_date" => setter Due.read? fun f x => { f with due := some x }
  | _ => none

def Flow.read? : Json → Option Flow :=
  readObject Flow.setter? {}

def Request.setter? : String → Option (Setter Request)
  | "op" => setter text? fun r x => { r with name := x }
  | "afterStepId" | "after_step_id" => setter text? fun r x => { r with after := x }
  | "beforeStepId" | "before_step_id" => setter text? fun r x => { r with before := x }
  | "stepId" | "step_id" => setter text? fun r x => { r with stepId := x }
  | "step" => setter Step.read? fun r x => { r with step := some x }
  | "updates" => setter Record.ofJson? fun r x => { r with updates := x }
  | "branchStepId" | "branch_step_id" => setter text? fun r x => { r with branch := x }
  | "pathId" | "path_id" => setter text? fun r x => { r with pathId := x }
  | "path" => setter Path.read? fun r x => { r with path := some x }
  | "condition" => setter Condition.read? fun r x => { r with condition := some x }
  | "conditions" => setter (items? Condition.read?) fun r x => { r with conditions := x }
  | "conditionLogic" | "condition_logic" => setter logic? fun r x => { r with logic := x }
  | "decisionStepId" | "decision_step_id" => setter text? fun r x => { r with decision := x }
  | "outcomeId" | "outcome_id" => setter text? fun r x => { r with outcomeId := x }
  | "outcome" => setter Outcome.read? fun r x => { r with outcome := some x }
  | "label" => setter text? fun r x => { r with label := x }
  | "status" => setter status? fun r x => { r with status := x }
  | "targetGotoDestinationId" | "target_goto_destination_id" =>
    setter text? fun r x => { r with target := x }
  | "milestone" => setter Milestone.read? fun r x => { r with milestone := some x }
  | "milestoneId" | "milestone_id" => setter text? fun r x => { r with milestoneId := x }
  | "name" => setter text? fun r x => { r with newName := x }
  | _ => none

def Request.read? : Json → Option Request :=
  readObject Request.setter? {}

/-- The requests of a batch, which is an object around their list. -/
def Request.readBatch? : Json → Option (List Request) :=
  readObject (fun
    | "operations" => setter (items? Request.read?) fun _ x => x
    | _ => none) []

def orMalformed {α : Type} (what : String) : Option α → Except Refusal α
  | some a => .ok a
  | none => .error (.malformed what)

def Flow.readText (text : String) : Except Refusal Flow :=
  orMalformed "flow" ((Json.read? text).bind Flow.read?)

def readRecord (text : String) : Except Refusal Record :=
  orMalformed "object" ((Json.read? text).bind Record.ofJson?)

def isLeadingBlank (c : Char) : Bool :=
  c == ' ' || c == '\t' || c == '\r' || c == '\n'

/-- The requests that a text spells; it may leave out the object around their list. -/
def Request.readText (text : String) : Except Refusal (List Request) :=
  let text := match text.toList.dropWhile isLeadingBlank with
    | '[' :: _ => "\x7b\"operations\":" ++ text ++ "\x7d"
    | _ => text
  orMalformed "operation batch" ((Json.read? text).bind Request.readBatch?)

end Workflow.Document
