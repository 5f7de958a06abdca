import Workflow.Flow.Outline
import Workflow.Sequence

namespace Workflow

/-- Whether the first step with that id, of all in and below the list, stands in the list itself. -/
def Step.standsIn (id : String) (steps : List Step) : Bool :=
  match steps.find? fun s => decide (id ∈ s.ids) with
  | some s => s.id == id
  | none => false

mutual

def Step.modifyBelow (id : String) (f : List Step → List Step) : List Step → List Step
  | [] => []
  | ⟨sid, milestone, title, description, due, config, body⟩ :: rest =>
    if id ∈ sid :: body.ids then
      ⟨sid, milestone, title, description, due, config, body.modify id f⟩ :: rest
    else ⟨sid, milestone, title, description, due, config, body⟩ :: Step.modifyBelow id f rest

def Body.modify (id : String) (f : List Step → List Step) : Body Step → Body Step
  | .branch kind join paths => .branch kind join (Path.modifyIn id f paths)
  | .decision outcomes => .decision (Outcome.modifyIn id f outcomes)
  | .action type quorum review => .action type quorum review
  | .subFlow template quorum => .subFlow template quorum
  | .goto target => .goto target
  | .gotoDestination label => .gotoDestination label
  | .terminate status => .terminate status

def Path.modifyIn (id : String) (f : List Step → List Step) : List (Path Step) →
    List (Path Step)
  | [] => []
  | ⟨pid, label, guard, steps⟩ :: rest =>
    if id ∈ Step.idsOf steps then
      ⟨pid, label, guard, if Step.standsIn id steps then f steps
        else Step.modifyBelow id f steps⟩ :: rest
    else ⟨pid, label, guard, steps⟩ :: Path.modifyIn id f rest

def Outcome.modifyIn (id : String) (f : List Step → List Step) :
    List (Outcome Step) → List (Outcome Step)
  | [] => []
  | ⟨oid, label, steps⟩ :: rest =>
    if id ∈ Step.idsOf steps then
      ⟨oid, label, if Step.standsIn id steps then f steps else Step.modifyBelow id f steps⟩ ::
        rest
    else ⟨oid, label, steps⟩ :: Outcome.modifyIn id f rest

end

/-- Edits the list in which the first step with that id stands. -/
def Step.modifyAround (id : String) (f : List Step → List Step) (steps : List Step) : List Step :=
  if Step.standsIn id steps then f steps else Step.modifyBelow id f steps

namespace Flow

/-- Edits the list in which the first step with that id stands. -/
def modifyAround (f : Flow) (id : String) (edit : List Step → List Step) : Flow :=
  { f with steps := Step.modifyAround id edit f.steps }

/-- Puts a step in the place of the first one with that id. -/
def replaceStep (f : Flow) (id : String) (new : Step) : Flow :=
  f.modifyAround id (Sequence.modifyFirst (fun s => s.id == id) fun _ => new)

end Flow

end Workflow
