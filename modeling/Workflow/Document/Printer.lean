import Workflow.Calendar
import Workflow.Data.Written
import Workflow.Document.Encode
import Workflow.Json.Printer

namespace Workflow

def Comparison.name : Comparison → String
  | .equals => "EQUALS"
  | .notEquals => "NOT_EQUALS"
  | .contains => "CONTAINS"
  | .notContains => "NOT_CONTAINS"
  | .greaterThan => "GREATER_THAN"
  | .lessThan => "LESS_THAN"
  | .isEmpty => "IS_EMPTY"
  | .notEmpty => "NOT_EMPTY"
  | .isIn => "IN"
  | .notIn => "NOT_IN"
  | .otherwise => "ELSE"

def Logic.name : Logic → String
  | .all => "ALL"
  | .any => "ANY"

def DeadlineKind.name : DeadlineKind → String
  | .relative => "RELATIVE"
  | .fixed => "FIXED"
  | .beforeFlowDue => "BEFORE_FLOW_DUE"

def DeadlineUnit.name : DeadlineUnit → String
  | .hours => "HOURS"
  | .days => "DAYS"
  | .weeks => "WEEKS"

namespace Document

/-- The fields of an object, in order; each is written only if it holds something. -/
abbrev Fields := List (String × Json)

def textField (name value : String) : Fields :=
  if value = "" then [] else [(name, .text value)]

def boolField (name : String) (value : Bool) : Fields :=
  if value then [(name, .bool true)] else []

def choiceField {α : Type} (name : String) (spell : α → String) : Choice α → Fields
  | .known a => [(name, .text (spell a))]
  | .unset | .unknown => []

def objectField {α : Type} (name : String) (write : α → Json) : Option α → Fields
  | some a => [(name, write a)]
  | none => []

def listField (name : String) (items : List Json) : Fields :=
  if items.isEmpty then [] else [(name, .array items)]

def Due.toJson (d : Due) : Json :=
  .object (choiceField "type" DeadlineKind.name d.kind
    ++ (if d.value = 0 then [] else [("value", .text (toString d.value.toInt))])
    ++ choiceField "unit" DeadlineUnit.name d.unit
    ++ objectField "date" (fun ts => .text (Calendar.print ts)) d.date)

def Condition.toJson (c : Condition) : Json :=
  .object (choiceField "type" Comparison.name c.comparison ++ textField "left" c.left
    ++ textField "right" c.right ++ textField "value" c.value)

def Milestone.toJson (m : Milestone) : Json :=
  .object (textField "milestoneId" m.id ++ textField "name" m.name
    ++ if m.sequence = 0 then [] else [("sequence", .int m.sequence)])

mutual

def Step.toJson : Step → Json
  | ⟨id, type, milestone, title, description, due, config, quorum, review, template, paths, join,
      outcomes, target, label, status⟩ =>
    .object (textField "stepId" id ++ textField "type" type ++ textField "milestoneId" milestone
      ++ textField "title" title ++ textField "description" description
      ++ objectField "due" Due.toJson due
      ++ (if config.isEmpty then [] else [("config", Record.toJson config)])
      ++ choiceField "completionMode" Quorum.name quorum ++ boolField "aiReview" review
      ++ textField "flowTemplateId" template ++ listField "paths" (Path.listToJson paths)
      ++ choiceField "joinMode" Quorum.name join
      ++ listField "outcomes" (Outcome.listToJson outcomes)
      ++ textField "targetGotoDestinationId" target ++ textField "label" label
      ++ choiceField "status" TerminateStatus.name status)

def Path.listToJson : List (Path Step) → List Json
  | [] => []
  | ⟨id, label, condition, conditions, logic, steps⟩ :: rest =>
    .object (textField "pathId" id ++ textField "label" label
      ++ objectField "condition" Condition.toJson condition
      ++ listField "conditions" (conditions.map Condition.toJson)
      ++ choiceField "conditionLogic" Logic.name logic ++ listField "steps" (Step.listToJson steps))
      :: Path.listToJson rest

def Outcome.listToJson : List (Outcome Step) → List Json
  | [] => []
  | ⟨id, label, steps⟩ :: rest =>
    .object (textField "outcomeId" id ++ textField "label" label
      ++ listField "steps" (Step.listToJson steps))
      :: Outcome.listToJson rest

def Step.listToJson : List Step → List Json
  | [] => []
  | s :: rest => s.toJson :: Step.listToJson rest

end

def Flow.toJson (f : Flow) : Json :=
  .object (textField "flowId" f.id ++ textField "name" f.name
    ++ listField "milestones" (f.milestones.map Milestone.toJson)
    ++ listField "steps" (Step.listToJson f.steps) ++ objectField "dueDate" Due.toJson f.due)

def Flow.print (f : Flow) : String :=
  f.toJson.print

end Document

def Flow.write (f : Flow) : Except Document.Refusal Json :=
  if f.toDocument.isPrintable then .ok f.toDocument.toJson else .error (.unprintable "flow")

end Workflow
