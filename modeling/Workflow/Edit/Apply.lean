import Workflow.Edit
import Workflow.Flow.Modify
import Workflow.Flow.Siblings

namespace Workflow

/-- Lays a patch over a body: only actions are reviewed, only actions and sub-flows have a
quorum. -/
def StepPatch.applyToBody (p : StepPatch) (id : String) (body : Body Step) :
    Except EditError (Body Step) :=
  match body with
  | .action type quorum review => .ok (.action type (p.quorum.getD quorum) (p.review.getD review))
  | .subFlow template quorum =>
    if p.review.isSome then .error (.notReviewable id)
    else .ok (.subFlow template (p.quorum.getD quorum))
  | other =>
    if p.review.isSome then .error (.notReviewable id)
    else if p.quorum.isSome then .error (.noQuorum id)
    else .ok other

def StepPatch.apply (p : StepPatch) (s : Step) : Except EditError Step := do
  let body ← p.applyToBody s.id s.body
  return { s with
    title := p.title.getD s.title
    description := p.description.getD s.description
    milestone := p.milestone.getD s.milestone
    due := p.due.or s.due
    config := Table.overlay s.config p.config
    body := body }

/-- New ids are given, are not taken and do not repeat among themselves. -/
def checkFresh (taken : List String) : List String → Except EditError Unit
  | [] => .ok ()
  | id :: rest =>
    if id = "" then .error .stepIdRequired
    else if id ∈ taken then .error (.duplicateStepId id)
    else checkFresh (id :: taken) rest

def orError {α : Type} (e : EditError) : Option α → Except EditError α
  | some a => .ok a
  | none => .error e

/-- Edits a list of steps, in a flow that holds the ids `taken`. -/
def ListEdit.apply (target : Target) (taken : List String) (steps : List Step) :
    ListEdit → Except EditError (List Step)
  | .addAfter anchor step => do
    checkFresh taken step.ids
    match anchor with
    | none => return step :: steps
    | some anchor => orError (.stepNotFound target anchor) (Siblings.addAfter? anchor step steps)
  | .addBefore anchor step => do
    checkFresh taken step.ids
    orError (.stepNotFound target anchor) (Siblings.addBefore? anchor step steps)
  | .remove id =>
    (orError (.stepNotFound target id) (Siblings.take? id steps)).map Prod.snd
  | .update id patch => do
    let step ← orError (.stepNotFound target id) (Siblings.find? id steps)
    let step ← patch.apply step
    return Sequence.modifyFirst (fun s => s.id == id) (fun _ => step) steps
  | .move id after => do
    let _ ← orError (.stepNotFound target id) (Siblings.find? id steps)
    orError (.notMovable id) (Siblings.move? id after steps)

namespace Flow

def updateStep (f : Flow) (id : String) (change : Step → Except EditError Step) :
    Except EditError Flow := do
  let place ← orError (.stepNotFound .mainPath id) (f.find? id)
  let step ← change place.step
  return f.replaceStep id step

/-- Changes the paths of the first step with that id, which has to be a branch. -/
def updateBranch (f : Flow) (id : String)
    (change : List (Path Step) → Except EditError (List (Path Step))) : Except EditError Flow :=
  match f.find? id with
  | some place =>
    match place.step.body with
    | .branch kind join paths => do
      let paths ← change paths
      return f.replaceStep id { place.step with body := .branch kind join paths }
    | _ => .error (.branchNotFound id)
  | none => .error (.branchNotFound id)

/-- Changes the outcomes of the first step with that id, which has to be a decision. -/
def updateDecision (f : Flow) (id : String)
    (change : List (Outcome Step) → Except EditError (List (Outcome Step))) :
    Except EditError Flow :=
  match f.find? id with
  | some place =>
    match place.step.body with
    | .decision outcomes => do
      let outcomes ← change outcomes
      return f.replaceStep id { place.step with body := .decision outcomes }
    | _ => .error (.decisionNotFound id)
  | none => .error (.decisionNotFound id)

end Flow

def Path.update (id : String) (change : Path Step → Except EditError (Path Step))
    (paths : List (Path Step)) : Except EditError (List (Path Step)) := do
  let path ← orError (.pathNotFound id) (paths.find? fun p => p.id == id)
  let path ← change path
  return Sequence.modifyFirst (fun p => p.id == id) (fun _ => path) paths

def Outcome.update (id : String) (change : Outcome Step → Except EditError (Outcome Step))
    (outcomes : List (Outcome Step)) : Except EditError (List (Outcome Step)) := do
  let outcome ← orError (.outcomeNotFound id) (outcomes.find? fun o => o.id == id)
  let outcome ← change outcome
  return Sequence.modifyFirst (fun o => o.id == id) (fun _ => outcome) outcomes

namespace Flow

def updateTarget (f : Flow) (target : Target)
    (change : List Step → Except EditError (List Step)) : Except EditError Flow :=
  match target with
  | .mainPath => do
    let steps ← change f.steps
    return { f with steps := steps }
  | .path branch id =>
    f.updateBranch branch (Path.update id fun p => do
      let steps ← change p.steps
      return { p with steps := steps })
  | .outcome decision id =>
    f.updateDecision decision (Outcome.update id fun o => do
      let steps ← change o.steps
      return { o with steps := steps })

def findMilestone? (f : Flow) (id : String) : Option Milestone :=
  f.milestones.find? fun m => m.id == id

/-- Milestones by ascending sequence, equal ones in the order they had. -/
def sortMilestones (ms : List Milestone) : List Milestone :=
  ms.mergeSort fun a b => decide (a.sequence ≤ b.sequence)

def addMilestone (f : Flow) (m : Milestone) : Except EditError Flow :=
  if m.id = "" then .error .milestoneIdRequired
  else if (f.findMilestone? m.id).isSome then .error (.milestoneExists m.id)
  else .ok { f with milestones := sortMilestones (f.milestones ++ [m]) }

/-- Only a milestone that no step of the main path is assigned to can be removed. -/
def removeMilestone (f : Flow) (id : String) : Except EditError Flow :=
  if (f.findMilestone? id).isNone then .error (.milestoneNotFound id)
  else
    let users := f.steps.countP fun s => s.milestone == id
    if 0 < users then .error (.milestoneInUse id users)
    else .ok { f with milestones := f.milestones.filter fun m => m.id != id }

def updateMilestone (f : Flow) (id : String) (p : MilestonePatch) : Except EditError Flow :=
  match f.findMilestone? id with
  | none => .error (.milestoneNotFound id)
  | some m =>
    let new : Milestone := ⟨m.id, p.name.getD m.name, p.sequence.getD m.sequence⟩
    let milestones := Sequence.modifyFirst (fun m => m.id == id) (fun _ => new) f.milestones
    .ok { f with
      milestones := if new.sequence = m.sequence then milestones else sortMilestones milestones }

def addPath (f : Flow) (branch : String) (path : Path Step) : Except EditError Flow :=
  f.updateBranch branch fun paths =>
    if path.id = "" then .error .pathIdRequired
    else if paths.any fun p => p.id == path.id then .error (.pathExists path.id)
    else do
      checkFresh f.ids (Step.idsOf path.steps)
      return paths ++ [path]

def removePath (f : Flow) (branch id : String) : Except EditError Flow :=
  f.updateBranch branch fun paths =>
    if paths.any fun p => p.id == id then .ok (Sequence.dropFirst (fun p => p.id == id) paths)
    else .error (.pathNotFound id)

def addOutcome (f : Flow) (decision : String) (outcome : Outcome Step) : Except EditError Flow :=
  f.updateDecision decision fun outcomes =>
    if outcome.id = "" then .error .outcomeIdRequired
    else if outcomes.any fun o => o.id == outcome.id then .error (.outcomeExists outcome.id)
    else do
      checkFresh f.ids (Step.idsOf outcome.steps)
      return outcomes ++ [outcome]

def removeOutcome (f : Flow) (decision id : String) : Except EditError Flow :=
  f.updateDecision decision fun outcomes =>
    if outcomes.any fun o => o.id == id then .ok (Sequence.dropFirst (fun o => o.id == id) outcomes)
    else .error (.outcomeNotFound id)

end Flow

/-- Applies one edit. On the main path an update reaches any step of the flow. -/
def Edit.apply (f : Flow) : Edit → Except EditError Flow
  | .steps .mainPath (.update id patch) => f.updateStep id patch.apply
  | .steps target edit => f.updateTarget target fun steps => edit.apply target f.ids steps
  | .addPath branch path => f.addPath branch path
  | .removePath branch id => f.removePath branch id
  | .setGuard branch id guard =>
    f.updateBranch branch (Path.update id fun p => .ok { p with guard := guard })
  | .addOutcome decision outcome => f.addOutcome decision outcome
  | .removeOutcome decision id => f.removeOutcome decision id
  | .setOutcomeLabel decision id label =>
    f.updateDecision decision (Outcome.update id fun o => .ok { o with label := label })
  | .setTerminateStatus id status =>
    f.updateStep id fun s => match s.body with
      | .terminate _ => .ok { s with body := .terminate status }
      | _ => .error (.notTerminate id)
  | .setGotoTarget id target =>
    f.updateStep id fun s => match s.body with
      | .goto _ => .ok { s with body := .goto target }
      | _ => .error (.notGoto id)
  | .addMilestone m => f.addMilestone m
  | .removeMilestone id => f.removeMilestone id
  | .updateMilestone id patch => f.updateMilestone id patch
  | .rename name => .ok { f with name := name }

structure EditResult where
  index : Nat
  name : String
  error : Option EditError
  deriving DecidableEq, Repr

def EditResult.succeeded (r : EditResult) : Bool :=
  r.error.isNone

/-- What became of a batch: a result for each edit up to the first that failed, and the flow if none
did. -/
structure BatchResult where
  results : List EditResult
  flow : Option Flow

def BatchResult.succeeded (r : BatchResult) : Bool :=
  r.flow.isSome

def Edit.applyFrom (index : Nat) (f : Flow) : List Edit → BatchResult
  | [] => ⟨[], some f⟩
  | e :: rest =>
    match e.apply f with
    | .error error => ⟨[⟨index, e.name, some error⟩], none⟩
    | .ok f =>
      let tail := Edit.applyFrom (index + 1) f rest
      ⟨⟨index, e.name, none⟩ :: tail.results, tail.flow⟩

/-- Applies edits one after the other. The first that fails ends the batch, and then there is no
resulting flow. -/
def Flow.applyAll (f : Flow) (edits : List Edit) : BatchResult :=
  Edit.applyFrom 0 f edits

end Workflow
