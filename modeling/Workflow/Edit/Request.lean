import Workflow.Document.Decode
import Workflow.Document.Reader
import Workflow.Edit

namespace Workflow.Document.Request

open Workflow.Document (Refusal orMalformed)

def required (r : Request) (value field : String) : Except Refusal String :=
  if value = "" then .error (.fieldRequired r.name field) else .ok value

def needStepId (r : Request) : Except Refusal String :=
  r.required r.stepId "stepId"

def needBefore (r : Request) : Except Refusal String :=
  r.required r.before "beforeStepId"

def needMilestoneId (r : Request) : Except Refusal String :=
  r.required r.milestoneId "milestoneId"

/-- An empty anchor is none. -/
def anchor (r : Request) : Option String :=
  if r.after = "" then none else some r.after

def needStep (r : Request) : Except Refusal Workflow.Step :=
  match r.step with
  | some d => Step.ofDocument d
  | none => .error (.fieldRequired r.name "step")

def needText (r : Request) (field : String) : Value → Except Refusal String
  | .text s => .ok s
  | _ => .error (.textExpected r.name field)

/-- A deadline given as free data is read as the document it spells. -/
def needDeadline (r : Request) : Value → Except Refusal Deadline
  | .record fields => do
    let d ← orMalformed "due" (Due.read? (Record.toJson fields))
    Deadline.ofDocument d
  | _ => .error (.objectExpected r.name "due")

def needQuorum (r : Request) : Value → Except Refusal Quorum
  | .text s => match Quorum.ofName? s with
    | some q => .ok q
    | none => .error (.unknownQuorum r.name)
  | _ => .error (.unknownQuorum r.name)

def needBool (r : Request) : Value → Except Refusal Bool
  | .bool b => .ok b
  | _ => .error (.booleanExpected r.name)

/-- Takes one field of a step update into a patch. Fields without a meaning of their own are
settings, like the fields of `config`. -/
def patchField (r : Request) (p : StepPatch) (field : String) (value : Value) :
    Except Refusal StepPatch :=
  if field = "stepId" ∨ field = "type" then .error (.fieldFixed r.name field)
  else if field = "title" then (r.needText field value).map fun s => { p with title := some s }
  else if field = "description" then
    (r.needText field value).map fun s => { p with description := some s }
  else if field = "milestoneId" then
    (r.needText field value).map fun s => { p with milestone := some s }
  else if field = "due" then (r.needDeadline value).map fun d => { p with due := some d }
  else if field = "completionMode" then
    (r.needQuorum value).map fun q => { p with quorum := some q }
  else if field = "aiReview" then (r.needBool value).map fun b => { p with review := some b }
  else if field = "config" then
    match value with
    | .record fields => .ok { p with config := Table.overlay p.config fields }
    | _ => .error (.objectExpected r.name "config")
  else .ok { p with config := Table.put field value p.config }

/-- The patch that the fields of an update make up, taken in order. -/
def patchOf (r : Request) (updates : Record) : Except Refusal StepPatch :=
  updates.foldlM (fun p entry => r.patchField p entry.1 entry.2) {}

def stepPatch (r : Request) : Except Refusal StepPatch :=
  r.patchOf r.updates

/-- A number cut to a 32-bit integer: its fraction is dropped, and what does not fit is the least
such integer. -/
def wholePart (x : Float) : Int :=
  match Binary64.decode? x with
  | some v =>
    let n : Int := ((v.num / v.den : Nat) : Int)
    let i := if v.negative then -n else n
    if -2147483648 ≤ i ∧ i ≤ 2147483647 then i else -2147483648
  | none => -2147483648

def milestoneField (r : Request) (p : MilestonePatch) (field : String) (value : Value) :
    Except Refusal MilestonePatch :=
  if field = "name" then (r.needText field value).map fun s => { p with name := some s }
  else if field = "sequence" then
    match value with
    | .number x => .ok { p with sequence := some (wholePart x) }
    | _ => .error (.numberExpected r.name)
  else .error (.unknownMilestoneField r.name field)

def milestonePatch (r : Request) : Except Refusal MilestonePatch :=
  r.updates.foldlM (fun p entry => r.milestoneField p entry.1 entry.2) {}

def pathTarget (r : Request) : Except Refusal Target := do
  let branch ← r.required r.branch "branchStepId"
  let id ← r.required r.pathId "pathId"
  return .path branch id

def outcomeTarget (r : Request) : Except Refusal Target := do
  let decision ← r.required r.decision "decisionStepId"
  let id ← r.required r.outcomeId "outcomeId"
  return .outcome decision id

def addAfter (r : Request) (target : Except Refusal Target) : Except Refusal Edit := do
  let target ← target
  let step ← r.needStep
  return .steps target (.addAfter r.anchor step)

def addBefore (r : Request) (target : Except Refusal Target) : Except Refusal Edit := do
  let target ← target
  let before ← r.needBefore
  let step ← r.needStep
  return .steps target (.addBefore before step)

def remove (r : Request) (target : Except Refusal Target) : Except Refusal Edit := do
  let target ← target
  let id ← r.needStepId
  return .steps target (.remove id)

def update (r : Request) (target : Except Refusal Target) : Except Refusal Edit := do
  let target ← target
  let id ← r.needStepId
  let patch ← r.stepPatch
  return .steps target (.update id patch)

def move (r : Request) (target : Except Refusal Target) : Except Refusal Edit := do
  let target ← target
  let id ← r.needStepId
  return .steps target (.move id r.anchor)

def addPath (r : Request) : Except Refusal Edit :=
  match r.path with
  | none => .error (.fieldRequired r.name "path")
  | some d => do
    let branch ← r.required r.branch "branchStepId"
    let path ← Path.ofDocument d
    return .addPath branch path

def removePath (r : Request) : Except Refusal Edit := do
  let branch ← r.required r.branch "branchStepId"
  let id ← r.required r.pathId "pathId"
  return .removePath branch id

def setGuard (r : Request) : Except Refusal Edit := do
  let branch ← r.required r.branch "branchStepId"
  let id ← r.required r.pathId "pathId"
  let guard ← Guard.ofDocument r.condition r.conditions r.logic
  return .setGuard branch id guard

def addOutcome (r : Request) : Except Refusal Edit :=
  match r.outcome with
  | none => .error (.fieldRequired r.name "outcome")
  | some d => do
    let decision ← r.required r.decision "decisionStepId"
    let outcome ← Outcome.ofDocument d
    return .addOutcome decision outcome

def removeOutcome (r : Request) : Except Refusal Edit := do
  let decision ← r.required r.decision "decisionStepId"
  let id ← r.required r.outcomeId "outcomeId"
  return .removeOutcome decision id

def setOutcomeLabel (r : Request) : Except Refusal Edit := do
  let decision ← r.required r.decision "decisionStepId"
  let id ← r.required r.outcomeId "outcomeId"
  return .setOutcomeLabel decision id r.label

def setTerminateStatus (r : Request) : Except Refusal Edit := do
  if r.status = .unset then .error (.fieldRequired r.name "status")
  let id ← r.needStepId
  return .setTerminateStatus id (r.status.getD .completed)

def setGotoTarget (r : Request) : Except Refusal Edit := do
  let id ← r.needStepId
  let target ← r.required r.target "targetGotoDestinationId"
  return .setGotoTarget id target

def addMilestone (r : Request) : Except Refusal Edit :=
  match r.milestone with
  | none => .error (.fieldRequired r.name "milestone")
  | some m => .ok (.addMilestone m)

def updateMilestone (r : Request) : Except Refusal Edit := do
  let id ← r.needMilestoneId
  let patch ← r.milestonePatch
  return .updateMilestone id patch

def toEdit (r : Request) : Except Refusal Edit :=
  match r.name with
  | "ADD_STEP_AFTER" => r.addAfter (.ok .mainPath)
  | "ADD_STEP_BEFORE" => r.addBefore (.ok .mainPath)
  | "REMOVE_STEP" => r.remove (.ok .mainPath)
  | "UPDATE_STEP" => r.update (.ok .mainPath)
  | "MOVE_STEP" => r.move (.ok .mainPath)
  | "ADD_PATH_STEP_AFTER" => r.addAfter r.pathTarget
  | "ADD_PATH_STEP_BEFORE" => r.addBefore r.pathTarget
  | "REMOVE_PATH_STEP" => r.remove r.pathTarget
  | "UPDATE_PATH_STEP" => r.update r.pathTarget
  | "MOVE_PATH_STEP" => r.move r.pathTarget
  | "ADD_BRANCH_PATH" => r.addPath
  | "REMOVE_BRANCH_PATH" => r.removePath
  | "UPDATE_BRANCH_PATH_CONDITION" => r.setGuard
  | "ADD_DECISION_OUTCOME" => r.addOutcome
  | "REMOVE_DECISION_OUTCOME" => r.removeOutcome
  | "UPDATE_DECISION_OUTCOME_LABEL" => r.setOutcomeLabel
  | "ADD_OUTCOME_STEP_AFTER" => r.addAfter r.outcomeTarget
  | "ADD_OUTCOME_STEP_BEFORE" => r.addBefore r.outcomeTarget
  | "REMOVE_OUTCOME_STEP" => r.remove r.outcomeTarget
  | "UPDATE_OUTCOME_STEP" => r.update r.outcomeTarget
  | "MOVE_OUTCOME_STEP" => r.move r.outcomeTarget
  | "UPDATE_TERMINATE_STATUS" => r.setTerminateStatus
  | "UPDATE_GOTO_TARGET" => r.setGotoTarget
  | "ADD_MILESTONE" => r.addMilestone
  | "REMOVE_MILESTONE" => r.needMilestoneId.map .removeMilestone
  | "UPDATE_MILESTONE" => r.updateMilestone
  | "UPDATE_FLOW_NAME" => .ok (.rename r.newName)
  | name => .error (.unknownRequest name)

/-- The edits of a batch of requests, up to the first request that is refused. -/
def toEdits (requests : List Request) : Except Refusal (List Edit) :=
  requests.mapM toEdit

end Workflow.Document.Request

namespace Workflow

open Document (Refusal)

def Edit.readText (text : String) : Except Refusal (List Edit) := do
  let requests ← Document.Request.readText text
  Document.Request.toEdits requests

def Flow.readText (text : String) : Except Refusal Flow := do
  let d ← Document.Flow.readText text
  Flow.ofDocument d

end Workflow
