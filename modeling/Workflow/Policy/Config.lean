import Workflow.Json.Field
import Workflow.Json.Reader
import Workflow.Policy

namespace Workflow

namespace Config

structure Engine where
  multiChoice : Choice MultiChoicePolicy := .unset
  terminate : Choice TerminatePolicy := .unset
  chainLimit : UInt32 := 0

structure Notifications where
  remind : Option Bool := none
  remindDays : UInt32 := 0
  overdue : Option Bool := none
  escalateDays : Option UInt32 := none

structure Limits where
  maxPaths : UInt32 := 0
  maxOutcomes : UInt32 := 0
  maxDepth : UInt32 := 0
  maxClauses : UInt32 := 0
  gotoInside : List String := []
  terminateInside : List String := []

structure TypeEntry where
  type : String := ""
  autoCompletes : Option Bool := none
  displayName : String := ""

structure Logging where
  level : String := ""
  pattern : String := ""

end Config

structure Config where
  logging : Config.Logging := {}
  engine : Config.Engine := {}
  notifications : Config.Notifications := {}
  linkHours : UInt32 := 0
  limits : Config.Limits := {}
  types : List Config.TypeEntry := []

inductive ConfigError where
  | unknownType (setting name : String)
  deriving DecidableEq, Repr

/-- The text of an error, which ends at the first NUL in it. -/
def ConfigError.message : ConfigError → String
  | .unknownType setting name =>
    Text.untilNul ("Invalid configuration: " ++ setting ++ ": unknown step type " ++ name)

namespace Config

def given (value default : UInt32) : UInt32 :=
  if value = 0 then default else value

def enginePolicy (c : Config) : EnginePolicy :=
  let standard : EnginePolicy := {}
  { multiChoice := c.engine.multiChoice.getD standard.multiChoice
    terminate := c.engine.terminate.getD standard.terminate
    chainLimit := given c.engine.chainLimit standard.chainLimit
    reminders :=
      { remind := c.notifications.remind.getD standard.reminders.remind
        remindDays := given c.notifications.remindDays standard.reminders.remindDays
        overdue := c.notifications.overdue.getD standard.reminders.overdue
        escalateDays := c.notifications.escalateDays }
    linkHours := given c.linkHours standard.linkHours }

def typeNamed (setting name : String) : Except ConfigError StepType :=
  match StepType.ofName? name with
  | some type => .ok type
  | none => .error (.unknownType setting name)

/-- The types of a list of names; an empty list leaves the default. -/
def typesNamed (setting : String) (names : List String) (default : List StepType) :
    Except ConfigError (List StepType) :=
  if names.isEmpty then .ok default else names.mapM (typeNamed setting)

def constraints (c : Config) : Except ConfigError Constraints := do
  let standard : Constraints := {}
  let gotoInside ← typesNamed "constraints.goto_allowed_inside" c.limits.gotoInside
    standard.gotoInside
  let terminateInside ← typesNamed "constraints.terminate_allowed_inside" c.limits.terminateInside
    standard.terminateInside
  return { maxPaths := given c.limits.maxPaths standard.maxPaths
           maxOutcomes := given c.limits.maxOutcomes standard.maxOutcomes
           maxDepth := given c.limits.maxDepth standard.maxDepth
           maxClauses := given c.limits.maxClauses standard.maxClauses
           gotoInside := gotoInside
           terminateInside := terminateInside }

/-- The catalogue with all entries laid over it in order. -/
def catalogue (c : Config) : Except ConfigError Catalogue :=
  c.types.foldlM (fun catalogue entry => do
    let type ← typeNamed "step_types" entry.type
    return catalogue.override type entry.autoCompletes entry.displayName) Catalogue.standard

open Json (Setter setter readObject items? text? bool? uint32? choice?)

def Logging.setter? : String → Option (Setter Logging)
  | "level" => setter text? fun l x => { l with level := x }
  | "pattern" => setter text? fun l x => { l with pattern := x }
  | _ => none

def Engine.setter? : String → Option (Setter Engine)
  | "multiChoicePolicy" | "multi_choice_policy" =>
    setter (choice? "MULTI_CHOICE_POLICY_UNSPECIFIED"
      [("MULTI_CHOICE_FAN_OUT", .fanOut), ("MULTI_CHOICE_FIRST_MATCH", .firstMatch)])
      fun e x => { e with multiChoice := x }
  | "terminatePolicy" | "terminate_policy" =>
    setter (choice? "TERMINATE_POLICY_UNSPECIFIED"
      [("TERMINATE_END_SCOPE", .endScope), ("TERMINATE_END_RUN", .endRun)])
      fun e x => { e with terminate := x }
  | "maxAutoAdvanceChain" | "max_auto_advance_chain" =>
    setter uint32? fun e x => { e with chainLimit := x }
  | _ => none

def Notifications.setter? : String → Option (Setter Notifications)
  | "dueDateApproaching" | "due_date_approaching" =>
    setter bool? fun n x => { n with remind := some x }
  | "dueDateApproachingDays" | "due_date_approaching_days" =>
    setter uint32? fun n x => { n with remindDays := x }
  | "actionDue" | "action_due" => setter bool? fun n x => { n with overdue := some x }
  | "escalationAfterDays" | "escalation_after_days" =>
    setter uint32? fun n x => { n with escalateDays := some x }
  | _ => none

def Limits.setter? : String → Option (Setter Limits)
  | "maxParallelPaths" | "max_parallel_paths" => setter uint32? fun l x => { l with maxPaths := x }
  | "maxDecisionOutcomes" | "max_decision_outcomes" =>
    setter uint32? fun l x => { l with maxOutcomes := x }
  | "maxNestingDepth" | "max_nesting_depth" => setter uint32? fun l x => { l with maxDepth := x }
  | "maxConditionsPerPath" | "max_conditions_per_path" =>
    setter uint32? fun l x => { l with maxClauses := x }
  | "gotoAllowedInside" | "goto_allowed_inside" =>
    setter (items? text?) fun l x => { l with gotoInside := x }
  | "terminateAllowedInside" | "terminate_allowed_inside" =>
    setter (items? text?) fun l x => { l with terminateInside := x }
  | _ => none

def TypeEntry.setter? : String → Option (Setter TypeEntry)
  | "type" => setter text? fun t x => { t with type := x }
  | "autoCompletes" | "auto_completes" => setter bool? fun t x => { t with autoCompletes := some x }
  | "displayName" | "display_name" => setter text? fun t x => { t with displayName := x }
  | _ => none

def linkSetter? : String → Option (Setter UInt32)
  | "ttlHours" | "ttl_hours" => setter uint32? fun _ x => x
  | _ => none

def setter? : String → Option (Setter Config)
  | "logging" => setter (readObject Logging.setter? {}) fun c x => { c with logging := x }
  | "engine" => setter (readObject Engine.setter? {}) fun c x => { c with engine := x }
  | "notifications" =>
    setter (readObject Notifications.setter? {}) fun c x => { c with notifications := x }
  | "magicLink" | "magic_link" => setter (readObject linkSetter? 0) fun c x =>
    { c with linkHours := x }
  | "constraints" => setter (readObject Limits.setter? {}) fun c x => { c with limits := x }
  | "stepTypes" | "step_types" =>
    setter (items? (readObject TypeEntry.setter? {})) fun c x => { c with types := x }
  | _ => none

def read? : Json → Option Config :=
  readObject setter? {}

def readText? (text : String) : Option Config :=
  (Json.read? text).bind read?

end Config

end Workflow
