import Workflow.Flow

/-!
Edits of a flow: what can be asked for. The same five edits apply to the main path, to a path of a
branch and to an outcome of a decision.
-/

namespace Workflow

/-- New settings for a step; what is not given stays, and `config` is laid over key by key. -/
structure StepPatch where
  title : Option String := none
  description : Option String := none
  milestone : Option String := none
  due : Option Deadline := none
  quorum : Option Quorum := none
  review : Option Bool := none
  config : Record := []

structure MilestonePatch where
  name : Option String := none
  sequence : Option Int := none
  deriving DecidableEq, Repr

/-- A list of steps that is edited by the ids of its steps. -/
inductive Target where
  | mainPath
  | path (branch id : String)
  | outcome (decision id : String)
  deriving DecidableEq, Repr

inductive ListEdit where
  | addAfter (anchor : Option String) (step : Step)
  | addBefore (anchor : String) (step : Step)
  | remove (id : String)
  | update (id : String) (patch : StepPatch)
  | move (id : String) (after : Option String)

inductive Edit where
  | steps (target : Target) (edit : ListEdit)
  | addPath (branch : String) (path : Path Step)
  | removePath (branch id : String)
  | setGuard (branch id : String) (guard : Guard)
  | addOutcome (decision : String) (outcome : Outcome Step)
  | removeOutcome (decision id : String)
  | setOutcomeLabel (decision id label : String)
  | setTerminateStatus (step : String) (status : TerminateStatus)
  | setGotoTarget (step target : String)
  | addMilestone (milestone : Milestone)
  | removeMilestone (id : String)
  | updateMilestone (id : String) (patch : MilestonePatch)
  | rename (name : String)

def Target.wording : Target → String
  | .mainPath => "STEP"
  | .path _ _ => "PATH_STEP"
  | .outcome _ _ => "OUTCOME_STEP"

def ListEdit.name (target : String) : ListEdit → String
  | .addAfter _ _ => "ADD_" ++ target ++ "_AFTER"
  | .addBefore _ _ => "ADD_" ++ target ++ "_BEFORE"
  | .remove _ => "REMOVE_" ++ target
  | .update _ _ => "UPDATE_" ++ target
  | .move _ _ => "MOVE_" ++ target

def Edit.name : Edit → String
  | .steps target edit => edit.name target.wording
  | .addPath _ _ => "ADD_BRANCH_PATH"
  | .removePath _ _ => "REMOVE_BRANCH_PATH"
  | .setGuard _ _ _ => "UPDATE_BRANCH_PATH_CONDITION"
  | .addOutcome _ _ => "ADD_DECISION_OUTCOME"
  | .removeOutcome _ _ => "REMOVE_DECISION_OUTCOME"
  | .setOutcomeLabel _ _ _ => "UPDATE_DECISION_OUTCOME_LABEL"
  | .setTerminateStatus _ _ => "UPDATE_TERMINATE_STATUS"
  | .setGotoTarget _ _ => "UPDATE_GOTO_TARGET"
  | .addMilestone _ => "ADD_MILESTONE"
  | .removeMilestone _ => "REMOVE_MILESTONE"
  | .updateMilestone _ _ => "UPDATE_MILESTONE"
  | .rename _ => "UPDATE_FLOW_NAME"

inductive EditError where
  | stepNotFound (target : Target) (id : String)
  | branchNotFound (id : String)
  | pathNotFound (id : String)
  | decisionNotFound (id : String)
  | outcomeNotFound (id : String)
  | milestoneNotFound (id : String)
  | stepIdRequired
  | pathIdRequired
  | outcomeIdRequired
  | milestoneIdRequired
  | duplicateStepId (id : String)
  | pathExists (id : String)
  | outcomeExists (id : String)
  | milestoneExists (id : String)
  | milestoneInUse (id : String) (steps : Nat)
  | notMovable (id : String)
  | notTerminate (id : String)
  | notGoto (id : String)
  | notReviewable (id : String)
  | noQuorum (id : String)
  deriving DecidableEq, Repr

def Target.describe : Target → String
  | .mainPath => ""
  | .path _ _ => " in path"
  | .outcome _ _ => " in outcome"

def EditError.wording : EditError → String
  | .stepNotFound target id => "step not found" ++ target.describe ++ ": " ++ id
  | .branchNotFound id => "branch step not found: " ++ id
  | .pathNotFound id => "path not found: " ++ id
  | .decisionNotFound id => "decision step not found: " ++ id
  | .outcomeNotFound id => "outcome not found: " ++ id
  | .milestoneNotFound id => "milestone not found: " ++ id
  | .stepIdRequired => "step id is required"
  | .pathIdRequired => "path id is required"
  | .outcomeIdRequired => "outcome id is required"
  | .milestoneIdRequired => "milestone id is required"
  | .duplicateStepId id => "duplicate step id: " ++ id
  | .pathExists id => "path already exists: " ++ id
  | .outcomeExists id => "outcome already exists: " ++ id
  | .milestoneExists id => "milestone already exists: " ++ id
  | .milestoneInUse id steps =>
    "cannot remove milestone " ++ id ++ ": " ++ toString steps ++ " steps are assigned to it"
  | .notMovable id => "failed to move step: " ++ id
  | .notTerminate id => "step is not a TERMINATE step: " ++ id
  | .notGoto id => "step is not a GOTO step: " ++ id
  | .notReviewable id => "step does not support AI review: " ++ id
  | .noQuorum id => "step has no completion mode: " ++ id

/-- The text of an error, which ends at the first NUL in it. -/
def EditError.message (e : EditError) : String :=
  Text.untilNul e.wording

end Workflow
