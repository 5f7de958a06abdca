import Workflow.Flow.Outline
import Workflow.Policy

namespace Workflow

inductive Severity where
  | error | warning
  deriving DecidableEq, Repr

def Severity.name : Severity → String
  | .error => "error"
  | .warning => "warning"

/-- A rule for published flows that is broken. -/
inductive Problem where
  | repeatedMilestone (id : String)
  | noStepId
  | repeatedStepId (id : String)
  | noMilestone (step : String)
  | unknownMilestone (step milestone : String)
  | foreignMilestone (step owner : String)
  | misplacedGoto (step : String)
  | lostTarget (target : String)
  | badTarget (target : String)
  | misplacedTerminate (step : String)
  | pathCount (step : String) (limit : UInt32) (count : Nat)
  | badPathId (step : String)
  | tooManyClauses (path : String) (limit : UInt32)
  | mixedOtherwise (path : String)
  | unguarded (path : String)
  | outcomeCount (step : String) (limit : UInt32) (count : Nat)
  | badOutcomeId (step : String)
  | tooDeep (limit : UInt32)
  deriving DecidableEq, Repr

namespace Problem

def severity : Problem → Severity
  | .foreignMilestone _ _ | .unguarded _ => .warning
  | _ => .error

def rule : Problem → String
  | .repeatedMilestone _ => "unique_milestone_ids"
  | .noStepId => "step_id_required"
  | .repeatedStepId _ => "unique_step_ids"
  | .noMilestone _ | .unknownMilestone _ _ => "milestone_reference"
  | .foreignMilestone _ _ => "branch_milestone"
  | .misplacedGoto _ => "goto_placement"
  | .lostTarget _ | .badTarget _ => "goto_target"
  | .misplacedTerminate _ => "terminate_placement"
  | .pathCount _ _ _ => "branch_path_count"
  | .badPathId _ => "unique_path_ids"
  | .tooManyClauses _ _ => "condition_count"
  | .mixedOtherwise _ => "else_condition"
  | .unguarded _ => "path_condition_missing"
  | .outcomeCount _ _ _ => "decision_outcome_count"
  | .badOutcomeId _ => "unique_outcome_ids"
  | .tooDeep _ => "nesting_depth"

def message : Problem → String
  | .repeatedMilestone id => "duplicate milestone id: " ++ id
  | .noStepId => "step id is required"
  | .repeatedStepId id => "duplicate step id: " ++ id
  | .noMilestone step => "main path step has no milestone: " ++ step
  | .unknownMilestone step milestone =>
    "unknown milestone " ++ milestone ++ " on step " ++ step
  | .foreignMilestone step owner =>
    "step " ++ step ++ " is outside the milestone of its branch " ++ owner
  | .misplacedGoto step => "GOTO is not allowed here: " ++ step
  | .lostTarget target => "GOTO target not found: " ++ target
  | .badTarget target => "GOTO target must be a GOTO_DESTINATION on the main path: " ++ target
  | .misplacedTerminate step => "TERMINATE is not allowed here: " ++ step
  | .pathCount step limit count =>
    "branch " ++ step ++ " needs 2 to " ++ toString limit.toNat ++ " paths, has " ++ toString count
  | .badPathId step => "missing or duplicate path id in branch " ++ step
  | .tooManyClauses path limit =>
    "more than " ++ toString limit.toNat ++ " conditions on path " ++ path
  | .mixedOtherwise path => "ELSE must be the only condition of path " ++ path
  | .unguarded path => "path " ++ path ++ " has no condition and can only be chosen explicitly"
  | .outcomeCount step limit count =>
    "decision " ++ step ++ " needs 2 to " ++ toString limit.toNat ++ " outcomes, has "
      ++ toString count
  | .badOutcomeId step => "missing or duplicate outcome id in decision " ++ step
  | .tooDeep limit => "nesting deeper than " ++ toString limit.toNat ++ " levels"

end Problem

inductive Part where
  | milestones | steps | paths | outcomes
  deriving DecidableEq, Repr

def Part.name : Part → String
  | .milestones => "milestones"
  | .steps => "steps"
  | .paths => "paths"
  | .outcomes => "outcomes"

/-- Where in a flow something stands: the lists it is in, from the outermost, and its index in
each. -/
abbrev Site := List (Part × Nat)

/-- The site as a path, such as `steps[2].paths[0].steps[1]`. -/
def Site.toText (site : Site) : String :=
  ".".intercalate (site.map fun (part, i) => part.name ++ "[" ++ toString i ++ "]")

structure Finding where
  site : Site
  problem : Problem
  deriving DecidableEq, Repr

def Finding.toText (x : Finding) : String :=
  x.problem.severity.name ++ " " ++ x.site.toText ++ " [" ++ x.problem.rule ++ "] " ++
    x.problem.message

/-- What the rules for the steps of one list depend on. The owner is the branch or decision around
the list. -/
structure Surroundings where
  site : Site
  depth : Nat
  owner : Option Step

structure Inspection where
  flow : Flow
  limits : Constraints

def found (condition : Prop) [Decidable condition] (p : Problem) : List Problem :=
  if condition then [p] else []

namespace Inspection

/-- Ids are required, and none may repeat one of the steps before. -/
def idProblems (seen : List String) (s : Step) : List Problem :=
  if s.id = "" then [.noStepId] else found (s.id ∈ seen) (.repeatedStepId s.id)

/-- Steps of the main path belong to a milestone of the flow, except for GOTO; nested steps to that
of their owner, if to any. -/
def milestoneProblems (k : Inspection) (owner : Option Step) (s : Step) : List Problem :=
  match owner with
  | none =>
    if s.type = .goto then []
    else if s.milestone = "" then [.noMilestone s.id]
    else found (s.milestone ∉ k.flow.milestones.map Milestone.id)
      (.unknownMilestone s.id s.milestone)
  | some o =>
    found (s.milestone ≠ "" ∧ s.milestone ≠ o.milestone) (.foreignMilestone s.id o.id)

/-- Whether a step stands directly inside of a step of one of some types. -/
def isInside (owner : Option Step) (types : List StepType) : Bool :=
  match owner with
  | some o => types.contains o.type
  | none => false

def targetProblems (k : Inspection) (target : String) : List Problem :=
  if target = "" then [.lostTarget target]
  else
    match k.flow.find? target with
    | none => [.lostTarget target]
    | some place =>
      found (¬ (place.onMainPath ∧ place.step.type = .gotoDestination)) (.badTarget target)

def placementProblems (k : Inspection) (owner : Option Step) (s : Step) : List Problem :=
  match s.body with
  | .goto target =>
    found (¬ isInside owner k.limits.gotoInside) (.misplacedGoto s.id) ++ k.targetProblems target
  | .terminate _ => found (¬ isInside owner k.limits.terminateInside) (.misplacedTerminate s.id)
  | _ => []

/-- The fallback clause stands alone, and only the paths of a parallel branch need no clause. -/
def guardProblems (k : Inspection) (kind : BranchKind) (path : String) (g : Guard) : List Problem :=
  found (k.limits.maxClauses.toNat < g.clauses.length) (.tooManyClauses path k.limits.maxClauses)
    ++ found (g.clauses.any (fun c => c.comparison == .otherwise) ∧ 1 < g.clauses.length)
      (.mixedOtherwise path)
    ++ found (kind ≠ .parallel ∧ g.clauses.isEmpty) (.unguarded path)

/-- The findings on the paths of a branch, from the one at `index` on. -/
def pathFindings (k : Inspection) (site : Site) (step : String) (kind : BranchKind) (index : Nat)
    (seen : List String) : List (Path Step) → List Finding
  | [] => []
  | p :: rest =>
    (found (p.id = "" ∨ p.id ∈ seen) (.badPathId step)
        ++ k.guardProblems kind p.id p.guard).map (⟨site ++ [(.paths, index)], ·⟩)
      ++ k.pathFindings site step kind (index + 1) (p.id :: seen) rest

/-- The findings on the outcomes of a decision, from the one at `index` on. -/
def outcomeFindings (site : Site) (step : String) (index : Nat) (seen : List String) :
    List (Outcome Step) → List Finding
  | [] => []
  | o :: rest =>
    (found (o.id = "" ∨ o.id ∈ seen) (.badOutcomeId step)).map
        (⟨site ++ [(.outcomes, index)], ·⟩)
      ++ outcomeFindings site step (index + 1) (o.id :: seen) rest

/-- The findings on what a step does, nested steps apart. -/
def bodyFindings (k : Inspection) (site : Site) (s : Step) : List Finding :=
  match s.body with
  | .branch kind _ paths =>
    (found (paths.length < 2 ∨ k.limits.maxPaths.toNat < paths.length)
        (.pathCount s.id k.limits.maxPaths paths.length)).map (⟨site, ·⟩)
      ++ k.pathFindings site s.id kind 0 [] paths
  | .decision outcomes =>
    (found (outcomes.length < 2 ∨ k.limits.maxOutcomes.toNat < outcomes.length)
        (.outcomeCount s.id k.limits.maxOutcomes outcomes.length)).map (⟨site, ·⟩)
      ++ outcomeFindings site s.id 0 [] outcomes
  | _ => []

def stepFindings (k : Inspection) (owner : Option Step) (site : Site) (seen : List String)
    (s : Step) : List Finding :=
  (idProblems seen s ++ k.milestoneProblems owner s ++
    k.placementProblems owner s).map (⟨site, ·⟩)
    ++ k.bodyFindings site s

def depthFindings (k : Inspection) (site : Site) (depth : Nat) : List Finding :=
  (found (k.limits.maxDepth.toNat < depth) (.tooDeep k.limits.maxDepth)).map (⟨site, ·⟩)

end Inspection

mutual

/-- The findings on a step and on all steps nested in it; `seen` are the ids of the steps before. -/
def Step.findings (k : Inspection) (around : Surroundings) (index : Nat) (seen : List String) :
    Step → List Finding
  | ⟨id, milestone, title, description, due, config, body⟩ =>
    k.stepFindings around.owner (around.site ++ [(.steps, index)]) seen
        ⟨id, milestone, title, description, due, config, body⟩
      ++ body.findings k
        ⟨around.site ++ [(.steps, index)], around.depth + 1,
          some ⟨id, milestone, title, description, due, config, body⟩⟩
        (id :: seen)

/-- The findings on the steps nested in a body. The surroundings stand at the owner itself. -/
def Body.findings (k : Inspection) (around : Surroundings) (seen : List String) :
    Body Step → List Finding
  | .branch _ _ paths => Path.findingsAll k around 0 seen paths
  | .decision outcomes => Outcome.findingsAll k around 0 seen outcomes
  | .action _ _ _ | .subFlow _ _ | .goto _ | .gotoDestination _ | .terminate _ => []

def Path.findingsAll (k : Inspection) (around : Surroundings) (index : Nat) (seen : List String) :
    List (Path Step) → List Finding
  | [] => []
  | ⟨_, _, _, steps⟩ :: rest =>
    k.depthFindings (around.site ++ [(.paths, index)]) around.depth
      ++ Step.findingsAll k { around with site := around.site ++ [(.paths, index)] } 0 seen steps
      ++ Path.findingsAll k around (index + 1) (Step.idsOf steps ++ seen) rest

def Outcome.findingsAll (k : Inspection) (around : Surroundings) (index : Nat)
    (seen : List String) :
    List (Outcome Step) → List Finding
  | [] => []
  | ⟨_, _, steps⟩ :: rest =>
    k.depthFindings (around.site ++ [(.outcomes, index)]) around.depth
      ++ Step.findingsAll k { around with site := around.site ++ [(.outcomes, index)] } 0 seen steps
      ++ Outcome.findingsAll k around (index + 1) (Step.idsOf steps ++ seen) rest

def Step.findingsAll (k : Inspection) (around : Surroundings) (index : Nat) (seen : List String) :
    List Step → List Finding
  | [] => []
  | s :: rest =>
    s.findings k around index seen
      ++ Step.findingsAll k around (index + 1) (s.ids ++ seen) rest

end

/-- The findings on milestones, from the one at `index` on. -/
def Milestone.findings (index : Nat) (seen : List String) : List Milestone → List Finding
  | [] => []
  | m :: rest =>
    (found (m.id ∈ seen) (.repeatedMilestone m.id)).map (⟨[(.milestones, index)], ·⟩)
      ++ Milestone.findings (index + 1) (m.id :: seen) rest

namespace Flow

/-- All findings on a flow, in reading order: those on a list before those on what is nested in
it. -/
def findings (limits : Constraints) (f : Flow) : List Finding :=
  Milestone.findings 0 [] f.milestones ++
    Step.findingsAll ⟨f, limits⟩ ⟨[], 0, none⟩ 0 [] f.steps

def errors (limits : Constraints) (f : Flow) : List Finding :=
  (f.findings limits).filter fun x => x.problem.severity == .error

def warnings (limits : Constraints) (f : Flow) : List Finding :=
  (f.findings limits).filter fun x => x.problem.severity == .warning

/-- Whether nothing keeps the flow from being published. -/
def isSound (limits : Constraints) (f : Flow) : Bool :=
  (f.errors limits).isEmpty

/-- The findings in lines of text, errors before warnings, and their numbers in a last line. -/
def reportLines (limits : Constraints) (f : Flow) : List String :=
  (f.errors limits).map Finding.toText ++ (f.warnings limits).map Finding.toText
    ++ [(if f.isSound limits then "valid" else "invalid")
      ++ " (" ++ toString (f.errors limits).length ++ " errors, "
      ++ toString (f.warnings limits).length ++ " warnings)"]

end Flow

end Workflow
