import Workflow.Document
import Workflow.Flow.Outline

namespace Workflow

def Deadline.toDocument (d : Deadline) : Document.Due :=
  ⟨.known d.kind, d.value, .known d.unit, d.date.map Instant.toTimestamp⟩

def Clause.toDocument (c : Clause) : Document.Condition :=
  ⟨.known c.comparison, c.left, c.right, ""⟩

/-- A single clause goes alone and without the logic, which does not matter for it. -/
def Guard.toDocument (g : Guard) :
    Option Document.Condition × List Document.Condition × Choice Logic :=
  match g.clauses with
  | [] => (none, [], .unset)
  | [c] => (some c.toDocument, [], .unset)
  | clauses => (none, clauses.map Clause.toDocument, .known g.logic)

mutual

def Step.toDocument : Step → Document.Step
  | ⟨id, milestone, title, description, due, config, body⟩ =>
    body.toDocument
      { id := id
        type := body.type.name
        milestone := milestone
        title := title
        description := description
        due := due.map Deadline.toDocument
        config := config }

def Body.toDocument : Body Step → Document.Step → Document.Step
  | .action _ quorum review, d => { d with quorum := .known quorum, review := review }
  | .subFlow template quorum, d => { d with template := template, quorum := .known quorum }
  | .branch _ join paths, d => { d with join := .known join, paths := Path.toDocuments paths }
  | .decision outcomes, d => { d with outcomes := Outcome.toDocuments outcomes }
  | .goto target, d => { d with target := target }
  | .gotoDestination label, d => { d with label := label }
  | .terminate status, d => { d with status := .known status }

def Path.toDocuments : List (Path Step) → List (Document.Path Document.Step)
  | [] => []
  | ⟨id, label, guard, steps⟩ :: rest =>
    ⟨id, label, guard.toDocument.1, guard.toDocument.2.1, guard.toDocument.2.2,
      Step.toDocuments steps⟩ :: Path.toDocuments rest

def Outcome.toDocuments : List (Outcome Step) → List (Document.Outcome Document.Step)
  | [] => []
  | ⟨id, label, steps⟩ :: rest =>
    ⟨id, label, Step.toDocuments steps⟩ :: Outcome.toDocuments rest

def Step.toDocuments : List Step → List Document.Step
  | [] => []
  | s :: rest => s.toDocument :: Step.toDocuments rest

end

def Flow.toDocument (f : Flow) : Document.Flow :=
  ⟨f.id, f.name, f.milestones, Step.toDocuments f.steps, f.due.map Deadline.toDocument⟩

end Workflow
