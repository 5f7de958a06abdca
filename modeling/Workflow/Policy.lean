import Workflow.Deadline
import Workflow.Flow

namespace Workflow

/-- What a multiple choice does when several of its paths open. -/
inductive MultiChoicePolicy where
  | fanOut
  | firstMatch
  deriving DecidableEq, Repr

/-- How far a TERMINATE step reaches: to the end of its scope, or to the end of the run. -/
inductive TerminatePolicy where
  | endScope
  | endRun
  deriving DecidableEq, Repr

structure EnginePolicy where
  multiChoice : MultiChoicePolicy := .fanOut
  terminate : TerminatePolicy := .endScope
  /-- How many steps in a row may pass without anyone acting. -/
  chainLimit : UInt32 := 50
  reminders : ReminderPolicy := {}
  linkHours : UInt32 := 168
  deriving DecidableEq, Repr

/-- Bounds that a flow has to keep before it is published. -/
structure Constraints where
  maxPaths : UInt32 := 3
  maxOutcomes : UInt32 := 3
  maxDepth : UInt32 := 2
  maxClauses : UInt32 := 10
  /-- Types of steps that a GOTO may stand directly inside of. -/
  gotoInside : List StepType := [.decision, .singleChoiceBranch]
  /-- Types of steps that a TERMINATE may stand directly inside of. -/
  terminateInside : List StepType := [.decision, .singleChoiceBranch]
  deriving DecidableEq, Repr

structure TypeInfo where
  category : StepCategory
  displayName : String
  autoCompletes : Bool
  deriving DecidableEq, Repr

/-- Automation completes by itself, nothing else does. -/
def TypeInfo.standard (type : StepType) : TypeInfo :=
  ⟨type.category, type.displayName, type.category == .automation⟩

structure Catalogue where
  info : StepType → TypeInfo

namespace Catalogue

def standard : Catalogue :=
  ⟨TypeInfo.standard⟩

/-- Changes what is known of one type; an empty name changes no name. -/
def override (c : Catalogue) (type : StepType) (autoCompletes : Option Bool)
    (displayName : String) :
    Catalogue :=
  ⟨fun t =>
    if t = type then
      { c.info t with
        autoCompletes := autoCompletes.getD (c.info t).autoCompletes
        displayName := if displayName = "" then (c.info t).displayName else displayName }
    else c.info t⟩

def autoCompletes (c : Catalogue) (s : Step) : Bool :=
  (c.info s.type).autoCompletes

end Catalogue

end Workflow
