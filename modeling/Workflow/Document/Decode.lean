import Workflow.Document

namespace Workflow

open Document (Refusal Payload)

/-- Days from the start of the step, unless the document says otherwise. -/
def Deadline.ofDocument (d : Document.Due) : Except Refusal Deadline :=
  let due : Deadline :=
    ⟨d.kind.getD .relative, d.value, d.unit.getD .days, d.date.map Timestamp.toInstant⟩
  if due.isDated then .ok due else .error .dateRequired

def Deadline.ofDocument? : Option Document.Due → Except Refusal (Option Deadline)
  | none => .ok none
  | some d => (Deadline.ofDocument d).map some

def Clause.ofDocument (d : Document.Condition) : Except Refusal Clause :=
  match d.comparison.toOption with
  | none => .error .comparisonRequired
  | some comparison => .ok ⟨comparison, if d.left = "" then d.value else d.left, d.right⟩

/-- The clauses of a condition given alone and of a list of them, in this order. -/
def Guard.ofDocument (condition : Option Document.Condition) (conditions : List Document.Condition)
    (logic : Choice Logic) : Except Refusal Guard := do
  let clauses ← (condition.toList ++ conditions).mapM Clause.ofDocument
  return ⟨logic.getD .all, clauses⟩

/-- The first field of a document that its type has no use for. -/
def Document.Step.misplaced? (d : Document.Step) (type : StepType) : Option Payload :=
  let isBranch := type = .singleChoiceBranch || type = .multiChoiceBranch || type = .parallelBranch
  if !isBranch && (!d.paths.isEmpty || d.join.isGiven) then some .paths
  else if type ≠ .decision && !d.outcomes.isEmpty then some .outcomes
  else if type ≠ .goto && d.target ≠ "" then some .target
  else if type ≠ .gotoDestination && d.label ≠ "" then some .label
  else if type ≠ .terminate && d.status.isGiven then some .status
  else if type ≠ .subFlow && d.template ≠ "" then some .template
  else if !type.isAction && type ≠ .subFlow && d.quorum.isGiven then some .quorum
  else if !type.isAction && d.review then some .review
  else none

/-- A body of a type, with the nested steps that are given. -/
def Body.ofDocument (d : Document.Step) (type : StepType) (paths : List (Path Step))
    (outcomes : List (Outcome Step)) : Body Step :=
  match (Body.ofType type : Body Step) with
  | .action type _ _ => .action type (d.quorum.getD .anyOne) d.review
  | .subFlow _ _ => .subFlow d.template (d.quorum.getD .anyOne)
  | .branch kind _ _ => .branch kind (d.join.getD .all) paths
  | .decision _ => .decision outcomes
  | .goto _ => .goto d.target
  | .gotoDestination _ => .gotoDestination d.label
  | .terminate _ => .terminate (d.status.getD .completed)

mutual

/-- The step of a document, or the first fault in it in reading order. -/
def Step.ofDocument : Document.Step → Except Refusal Step
  | ⟨id, typeName, milestone, title, description, due, config, quorum, review, template, paths,
      join, outcomes, target, label, status⟩ =>
    match StepType.ofName? typeName with
    | none => .error (.unknownType id typeName)
    | some type =>
      let d : Document.Step := ⟨id, typeName, milestone, title, description, due, config, quorum,
        review, template, paths, join, outcomes, target, label, status⟩
      match d.misplaced? type with
      | some payload => .error (.misplaced id payload)
      | none => do
        let due ← Deadline.ofDocument? due
        let paths ← Path.ofDocuments paths
        let outcomes ← Outcome.ofDocuments outcomes
        return ⟨id, milestone, title, description, due, config,
          Body.ofDocument d type paths outcomes⟩

def Path.ofDocuments : List (Document.Path Document.Step) → Except Refusal (List (Path Step))
  | [] => .ok []
  | ⟨id, label, condition, conditions, logic, steps⟩ :: rest => do
    let guard ← Guard.ofDocument condition conditions logic
    let steps ← Step.ofDocuments steps
    let rest ← Path.ofDocuments rest
    return ⟨id, label, guard, steps⟩ :: rest

def Outcome.ofDocuments : List (Document.Outcome Document.Step) →
    Except Refusal (List (Outcome Step))
  | [] => .ok []
  | ⟨id, label, steps⟩ :: rest => do
    let steps ← Step.ofDocuments steps
    let rest ← Outcome.ofDocuments rest
    return ⟨id, label, steps⟩ :: rest

def Step.ofDocuments : List Document.Step → Except Refusal (List Step)
  | [] => .ok []
  | d :: rest => do
    let s ← Step.ofDocument d
    let rest ← Step.ofDocuments rest
    return s :: rest

end

def Path.ofDocument (d : Document.Path Document.Step) : Except Refusal (Path Step) := do
  let guard ← Guard.ofDocument d.condition d.conditions d.logic
  let steps ← Step.ofDocuments d.steps
  return ⟨d.id, d.label, guard, steps⟩

def Outcome.ofDocument (d : Document.Outcome Document.Step) : Except Refusal (Outcome Step) := do
  let steps ← Step.ofDocuments d.steps
  return ⟨d.id, d.label, steps⟩

def Flow.ofDocument (d : Document.Flow) : Except Refusal Flow := do
  let steps ← Step.ofDocuments d.steps
  let due ← Deadline.ofDocument? d.due
  return ⟨d.id, d.name, d.milestones, steps, due⟩

end Workflow
