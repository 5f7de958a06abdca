import Workflow.Flow.Outline
import Workflow.Policy
import Workflow.Routing

/-!
What follows a finished step. Nested scopes return like calls: behind the last step of a path or an
outcome the run goes on behind the branch or decision. A path of a fork reports to its fork instead,
and only the path whose report joins the fork goes on.
-/

namespace Workflow

structure Activation where
  step : String
  fork : Option String
  deriving DecidableEq, Repr

/-- Where one strand of a run goes: to a step, off the end of the main path, or nowhere, because its
fork waits for others or has joined without it. -/
inductive Onward where
  | activate (activation : Activation)
  | exhausted
  | absorbed
  deriving DecidableEq, Repr

structure Plan where
  activations : List Activation := []
  exhausted : Bool := false
  terminate : Option TerminateStatus := none
  endRun : Bool := false
  deriving DecidableEq, Repr

def Onward.toPlan : Onward → Plan
  | .activate a => { activations := [a] }
  | .exhausted => { exhausted := true }
  | .absorbed => {}

def Plan.add (p : Plan) : Onward → Plan
  | .activate a => { p with activations := p.activations ++ [a] }
  | .exhausted => { p with exhausted := true }
  | .absorbed => p

def Plan.ending? (p : Plan) : Option TerminateStatus :=
  if p.endRun then p.terminate else none

namespace Fork

/-- Whether the reported paths suffice. A fork that nothing reported to has not joined. -/
def isEnough (f : Fork) : Bool :=
  !f.finished.isEmpty && f.join.isSatisfied f.finished.length f.paths.length

def report (f : Fork) (path : String) : Fork :=
  let f := if path ∈ f.finished then f else { f with finished := f.finished ++ [path] }
  { f with joined := f.join.isSatisfied f.finished.length f.paths.length }

/-- Puts a fork in the place of the first one with its id. -/
def store (f : Fork) (forks : List Fork) : List Fork :=
  Sequence.modifyFirst (fun g => g.id == f.id) (fun _ => f) forks

/-- The fork that a strand belongs to, if the scope it leaves is a path of that fork's branch. -/
def of? (forks : List Fork) (fork : Option String) (branch : String) : Option Fork :=
  match fork.bind (Run.findFork? forks) with
  | some f => if f.branch = branch then some f else none
  | none => none

end Fork

namespace Outline

mutual

def onward (o : Outline) (forks : List Fork) (fork : Option String) (i : Fin o.places.length) :
    Onward × List Fork :=
  match (o.place i).next? with
  | some next => (.activate ⟨next.id, fork⟩, forks)
  | none => o.leave forks fork i
termination_by (i.val, 1)

/-- Leaves the scope around the step at a position. The owner of the scope comes before the step, so
that climbing from owner to owner ends. -/
def leave (o : Outline) (forks : List Fork) (fork : Option String) (i : Fin o.places.length) :
    Onward × List Fork :=
  match _hs : (o.place i).scope? with
  | none => (.exhausted, forks)
  | some scope =>
    match _hj : o.indexOf? scope.owner with
    | none => (.absorbed, forks)
    | some j =>
      match Fork.of? forks fork scope.owner with
      | none => o.onward forks fork j
      | some f =>
        if f.joined then (.absorbed, forks)
        else
          let reported := f.report scope.id
          let forks := reported.store forks
          if reported.joined then o.onward forks f.parent j else (.absorbed, forks)
termination_by (i.val, 0)
decreasing_by
  all_goals
    have := o.indexOf?_owner_lt _hs _hj
    exact Prod.Lex.left _ _ this

end

/-- Goes on with the first of the steps of a scope, or behind its owner if there is none. -/
def enter (o : Outline) (forks : List Fork) (fork : Option String) (owner : Fin o.places.length)
    (steps : List Step) : Onward × List Fork :=
  match steps with
  | [] => o.onward forks fork owner
  | s :: _ => (.activate ⟨s.id, fork⟩, forks)

end Outline

/-- Sends a run down several paths of the branch at a position. Paths without steps have finished
already. -/
def Outline.fanOut (o : Outline) (forks : List Fork) (fork : Option String) (newId : String)
    (branch : Fin o.places.length) (join : Quorum) (paths : List (Path Step)) : Plan × List Fork :=
  let opened : Fork :=
    { id := newId
      branch := (o.place branch).id
      parent := fork
      paths := paths.map Path.id
      finished := (paths.filter fun p => p.steps.isEmpty).map Path.id
      join := join
      joined := false }
  let opened := { opened with joined := opened.isEnough }
  let forks := forks ++ [opened]
  let plan : Plan :=
    { activations := paths.filterMap fun p => p.steps.head?.map fun s => ⟨s.id, some newId⟩ }
  if opened.joined then
    let (next, forks) := o.onward forks fork branch
    (plan.add next, forks)
  else (plan, forks)

/-- A plan, the forks after it, and whether it opened a fork under the new id. -/
structure Planned where
  plan : Plan
  forks : List Fork
  opened : Bool := false

def Planned.ofOnward (next : Onward × List Fork) : Planned :=
  ⟨next.1.toPlan, next.2, false⟩

namespace Outline

def afterBranch (o : Outline) (policy : EnginePolicy) (forks : List Fork) (s : Situation)
    (fork : Option String) (newId : String) (i : Fin o.places.length) (kind : BranchKind)
    (join : Quorum) (paths : List (Path Step)) : Planned :=
  let fanOut := fun (taken : List (Path Step)) =>
    let (plan, forks) := o.fanOut forks fork newId i join taken
    (⟨plan, forks, true⟩ : Planned)
  match kind with
  | .singleChoice =>
    match s.single paths with
    | some p => .ofOnward (o.enter forks fork i p.steps)
    | none => .ofOnward (o.onward forks fork i)
  | .multiChoice =>
    match s.several paths with
    | [] => .ofOnward (o.onward forks fork i)
    | p :: rest =>
      match policy.multiChoice with
      | .firstMatch => .ofOnward (o.enter forks fork i p.steps)
      | .fanOut => fanOut (p :: rest)
  | .parallel =>
    match paths with
    | [] => .ofOnward (o.onward forks fork i)
    | p :: rest => fanOut (p :: rest)

/-- What follows the step at a position. A GOTO leaves all scopes and forks, but only for a step on
the main path. -/
def afterPlace (o : Outline) (policy : EnginePolicy) (forks : List Fork) (s : Situation)
    (fork : Option String) (newId : String) (i : Fin o.places.length) : Planned :=
  match (o.place i).step.body with
  | .action _ _ _ | .subFlow _ _ | .gotoDestination _ => .ofOnward (o.onward forks fork i)
  | .branch kind join paths => o.afterBranch policy forks s fork newId i kind join paths
  | .decision outcomes =>
    match s.outcome outcomes with
    | some outcome => .ofOnward (o.enter forks fork i outcome.steps)
    | none => .ofOnward (o.onward forks fork i)
  | .goto target =>
    match o.find? target with
    | some place =>
      if place.onMainPath then ⟨{ activations := [⟨place.id, none⟩] }, forks, false⟩
      else .ofOnward (o.onward forks fork i)
    | none => .ofOnward (o.onward forks fork i)
  | .terminate status =>
    if policy.terminate = .endRun ∨ (o.place i).onMainPath then
      ⟨{ terminate := some status, endRun := true }, forks, false⟩
    else
      let (next, forks) := o.leave forks fork i
      ⟨{ next.toPlan with terminate := some status }, forks, false⟩

/-- What follows a step once it finished with a result as part of a fork. `newId` is taken for a
fork that opens. -/
def after (o : Outline) (policy : EnginePolicy) (run : Run) (newId stepId : String)
    (result : Record)
    (fork : Option String) : Planned :=
  match o.indexOf? stepId with
  | none => ⟨{}, run.forks, false⟩
  | some i => o.afterPlace policy run.forks ⟨result, run⟩ fork newId i

end Outline

end Workflow
