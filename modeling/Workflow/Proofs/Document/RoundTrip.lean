import Workflow.Document.Decode
import Workflow.Document.Encode
import Workflow.Proofs.Document.Canon

namespace Workflow

/-- Splitting a time and joining it again loses nothing, before 1970 neither. -/
theorem Instant.toInstant_toTimestamp (t : Instant) : t.toTimestamp.toInstant = t := by
  have hsum : ∀ whole nanos : Int64, whole + (nanos - whole) = nanos := by
    intro whole nanos
    rw [Int64.add_comm, Int64.sub_add_cancel]
  exact congrArg Instant.mk (hsum _ _)

/-- A deadline is read back as it is, dates before 1970 included. -/
theorem Deadline.ofDocument_toDocument (d : Deadline) :
    Deadline.ofDocument d.toDocument = if d.isDated then .ok d else .error .dateRequired := by
  obtain ⟨kind, value, unit, date⟩ := d
  have hdate : (date.map Instant.toTimestamp).map Timestamp.toInstant = date := by
    cases date with
    | none => rfl
    | some t => simp [Instant.toInstant_toTimestamp]
  simp only [ofDocument, toDocument, Choice.getD, Choice.toOption, Option.getD_some, hdate]

theorem Deadline.ofDocument?_toDocument (d : Option Deadline) :
    Deadline.ofDocument? (d.map Deadline.toDocument) =
      if d.all Deadline.isDated then .ok d else .error .dateRequired := by
  cases d with
  | none => rfl
  | some d =>
    rw [Option.map_some, ofDocument?, Deadline.ofDocument_toDocument, Option.all_some]
    cases d.isDated <;> rfl

theorem Clause.ofDocument_toDocument (c : Clause) : Clause.ofDocument c.toDocument = .ok c := by
  by_cases h : c.left = ""
  · simp [ofDocument, toDocument, Choice.toOption, ← h]
  · simp [ofDocument, toDocument, Choice.toOption, h]

theorem Clause.ofDocuments_toDocuments (cs : List Clause) :
    (cs.map Clause.toDocument).mapM Clause.ofDocument = .ok cs := by
  induction cs with
  | nil => rfl
  | cons c rest ih =>
    rw [List.map_cons, List.mapM_cons, Clause.ofDocument_toDocument, ih]
    rfl

/-- A guard is read back without the logic that it has no use for. -/
theorem Guard.ofDocument_toDocument (g : Guard) :
    Guard.ofDocument g.toDocument.1 g.toDocument.2.1 g.toDocument.2.2 = .ok g.canon := by
  obtain ⟨logic, clauses⟩ := g
  match clauses with
  | [] => rfl
  | [c] =>
    simp only [ofDocument, toDocument, Option.toList_some, List.append_nil, List.mapM_cons,
      Clause.ofDocument_toDocument]
    rfl
  | c :: d :: rest =>
    have hclauses := Clause.ofDocuments_toDocuments (c :: d :: rest)
    simp only [ofDocument, toDocument, Option.toList_none, List.nil_append, hclauses]
    rfl

theorem Guard.toDocument_canon (g : Guard) : g.canon.toDocument = g.toDocument := by
  obtain ⟨logic, clauses⟩ := g
  match clauses with
  | [] => rfl
  | [_] => rfl
  | _ :: _ :: _ => rfl

theorem Body.type_canon (b : Body Step) : b.canon.type = b.type := by
  cases b <;> rfl

theorem StepType.ofName?_name (t : StepType) : StepType.ofName? t.name = some t := by
  cases t <;> decide

namespace Step

theorem type_toDocument (s : Step) : s.toDocument.type = s.type.name := by
  obtain ⟨id, milestone, title, description, due, config, body⟩ := s
  cases body <;> rfl

theorem due_toDocument (s : Step) : s.toDocument.due = s.due.map Deadline.toDocument := by
  obtain ⟨id, milestone, title, description, due, config, body⟩ := s
  cases body <;> rfl

/-- What all steps have goes into a document as it is. -/
theorem texts_toDocument (s : Step) : s.toDocument.id = s.id ∧
    s.toDocument.milestone = s.milestone ∧ s.toDocument.title = s.title ∧
    s.toDocument.description = s.description ∧ s.toDocument.config = s.config := by
  obtain ⟨id, milestone, title, description, due, config, body⟩ := s
  cases body <;> exact ⟨rfl, rfl, rfl, rfl, rfl⟩

/-- A document has no field that its type has no use for. -/
theorem misplaced_toDocument (s : Step) : s.toDocument.misplaced? s.type = none := by
  obtain ⟨id, milestone, title, description, due, config, body⟩ := s
  cases body with
  | action type quorum review =>
    obtain ⟨type, h⟩ := type
    cases type <;> first | rfl | cases h
  | branch kind join paths => cases kind <;> rfl
  | _ => rfl

end Step

mutual

/-- Whether all fixed deadlines in a step have a date. -/
def Step.isDated : Step → Bool
  | ⟨_, _, _, _, due, _, body⟩ => due.all Deadline.isDated && body.isDated

def Body.isDated : Body Step → Bool
  | .branch _ _ paths => Path.areDated paths
  | .decision outcomes => Outcome.areDated outcomes
  | .action _ _ _ => true
  | .subFlow _ _ => true
  | .goto _ => true
  | .gotoDestination _ => true
  | .terminate _ => true

def Path.areDated : List (Path Step) → Bool
  | [] => true
  | ⟨_, _, _, steps⟩ :: rest => Step.areDated steps && Path.areDated rest

def Outcome.areDated : List (Outcome Step) → Bool
  | [] => true
  | ⟨_, _, steps⟩ :: rest => Step.areDated steps && Outcome.areDated rest

def Step.areDated : List Step → Bool
  | [] => true
  | s :: rest => s.isDated && Step.areDated rest

end

/-- Whether all fixed deadlines of a flow and of its steps have a date. -/
def Flow.isDated (f : Flow) : Bool :=
  Step.areDated f.steps && f.due.all Deadline.isDated

/-- The document of a step gives back the step, once the scopes in it are read. -/
theorem Step.ofDocument_of_scopes {s : Step} {p q : Bool} {paths : List (Path Step)}
    {outcomes : List (Outcome Step)}
    (hpaths : Path.ofDocuments s.toDocument.paths = if p then .ok paths else .error .dateRequired)
    (houtcomes : Outcome.ofDocuments s.toDocument.outcomes =
      if q then .ok outcomes else .error .dateRequired) :
    Step.ofDocument s.toDocument =
      if s.due.all Deadline.isDated && (p && q) then
        .ok ⟨s.id, s.milestone, s.title, s.description, s.due, s.config,
          Body.ofDocument s.toDocument s.type paths outcomes⟩
      else .error .dateRequired := by
  have htype : StepType.ofName? s.toDocument.type = some s.type := by
    rw [s.type_toDocument, StepType.ofName?_name]
  have hplaced := s.misplaced_toDocument
  have hdue : Deadline.ofDocument? s.toDocument.due =
      if s.due.all Deadline.isDated then .ok s.due else .error .dateRequired := by
    rw [s.due_toDocument, Deadline.ofDocument?_toDocument]
  obtain ⟨hid, hmilestone, htitle, hdescription, hconfig⟩ := s.texts_toDocument
  rw [← hid, ← hmilestone, ← htitle, ← hdescription, ← hconfig]
  generalize s.toDocument = d at *
  obtain ⟨id, typeName, milestone, title, description, due, config, quorum, review, template,
    paths', join, outcomes', target, label, status⟩ := d
  simp only at htype hdue hpaths houtcomes
  rw [Step.ofDocument, htype]
  simp only [hplaced, hdue, hpaths, houtcomes]
  cases s.due.all Deadline.isDated <;> cases p <;> cases q <;> rfl

mutual

/-- The document of a step is read as the canonical form of the step, or refused for want of a date.
-/
theorem Step.ofDocument_toDocument (s : Step) :
    Step.ofDocument s.toDocument = if s.isDated then .ok s.canon else .error .dateRequired := by
  have nopaths : Path.ofDocuments [] = if true then .ok [] else .error .dateRequired := rfl
  have nooutcomes : Outcome.ofDocuments [] = if true then .ok [] else .error .dateRequired := rfl
  match s with
  | ⟨id, milestone, title, description, due, config, .branch kind join paths⟩ =>
    have hpaths := Path.ofDocuments_toDocuments paths
    rw [Step.ofDocument_of_scopes (by exact hpaths) (by exact nooutcomes), Bool.and_true,
      Step.isDated, Body.isDated]
    cases kind <;> rfl
  | ⟨id, milestone, title, description, due, config, .decision outcomes⟩ =>
    have houtcomes := Outcome.ofDocuments_toDocuments outcomes
    rw [Step.ofDocument_of_scopes (by exact nopaths) (by exact houtcomes), Step.isDated,
      Body.isDated]
    rfl
  | ⟨id, milestone, title, description, due, config, .action type quorum review⟩ =>
    rw [Step.ofDocument_of_scopes (by exact nopaths) (by exact nooutcomes)]
    obtain ⟨type, h⟩ := type
    cases type <;> first | rfl | cases h
  | ⟨id, milestone, title, description, due, config, .subFlow template quorum⟩ =>
    rw [Step.ofDocument_of_scopes (by exact nopaths) (by exact nooutcomes)]
    rfl
  | ⟨id, milestone, title, description, due, config, .goto target⟩ =>
    rw [Step.ofDocument_of_scopes (by exact nopaths) (by exact nooutcomes)]
    rfl
  | ⟨id, milestone, title, description, due, config, .gotoDestination label⟩ =>
    rw [Step.ofDocument_of_scopes (by exact nopaths) (by exact nooutcomes)]
    rfl
  | ⟨id, milestone, title, description, due, config, .terminate status⟩ =>
    rw [Step.ofDocument_of_scopes (by exact nopaths) (by exact nooutcomes)]
    rfl

theorem Path.ofDocuments_toDocuments (paths : List (Path Step)) :
    Path.ofDocuments (Path.toDocuments paths) =
      if Path.areDated paths then .ok (Path.canonAll paths) else .error .dateRequired := by
  match paths with
  | [] => rfl
  | ⟨id, label, guard, steps⟩ :: rest =>
    rw [Path.toDocuments, Path.ofDocuments, Guard.ofDocument_toDocument,
      Step.ofDocuments_toDocuments steps, Path.ofDocuments_toDocuments rest, Path.areDated]
    cases Step.areDated steps <;> cases Path.areDated rest <;> rfl

theorem Outcome.ofDocuments_toDocuments (outcomes : List (Outcome Step)) :
    Outcome.ofDocuments (Outcome.toDocuments outcomes) =
      if Outcome.areDated outcomes then .ok (Outcome.canonAll outcomes)
      else .error .dateRequired := by
  match outcomes with
  | [] => rfl
  | ⟨id, label, steps⟩ :: rest =>
    rw [Outcome.toDocuments, Outcome.ofDocuments, Step.ofDocuments_toDocuments steps,
      Outcome.ofDocuments_toDocuments rest, Outcome.areDated]
    cases Step.areDated steps <;> cases Outcome.areDated rest <;> rfl

theorem Step.ofDocuments_toDocuments (steps : List Step) :
    Step.ofDocuments (Step.toDocuments steps) =
      if Step.areDated steps then .ok (Step.canonAll steps) else .error .dateRequired := by
  match steps with
  | [] => rfl
  | s :: rest =>
    rw [Step.toDocuments, Step.ofDocuments, Step.ofDocument_toDocument s,
      Step.ofDocuments_toDocuments rest, Step.areDated]
    cases s.isDated <;> cases Step.areDated rest <;> rfl

end

mutual

theorem Step.toDocument_canon (s : Step) : s.canon.toDocument = s.toDocument := by
  match s with
  | ⟨id, milestone, title, description, due, config, body⟩ =>
    rw [Step.canon, Step.toDocument, Step.toDocument, Body.toDocument_canon body, body.type_canon]

theorem Body.toDocument_canon (b : Body Step) : b.canon.toDocument = b.toDocument := by
  funext d
  match b with
  | .branch kind join paths =>
    rw [Body.canon, Body.toDocument, Body.toDocument, Path.toDocuments_canonAll paths]
  | .decision outcomes =>
    rw [Body.canon, Body.toDocument, Body.toDocument, Outcome.toDocuments_canonAll outcomes]
  | .action _ _ _ => rfl
  | .subFlow _ _ => rfl
  | .goto _ => rfl
  | .gotoDestination _ => rfl
  | .terminate _ => rfl

theorem Path.toDocuments_canonAll (paths : List (Path Step)) :
    Path.toDocuments (Path.canonAll paths) = Path.toDocuments paths := by
  match paths with
  | [] => rfl
  | ⟨id, label, guard, steps⟩ :: rest =>
    rw [Path.canonAll, Path.toDocuments, Path.toDocuments, Guard.toDocument_canon,
      Step.toDocuments_canonAll steps, Path.toDocuments_canonAll rest]

theorem Outcome.toDocuments_canonAll (outcomes : List (Outcome Step)) :
    Outcome.toDocuments (Outcome.canonAll outcomes) = Outcome.toDocuments outcomes := by
  match outcomes with
  | [] => rfl
  | ⟨id, label, steps⟩ :: rest =>
    rw [Outcome.canonAll, Outcome.toDocuments, Outcome.toDocuments,
      Step.toDocuments_canonAll steps, Outcome.toDocuments_canonAll rest]

theorem Step.toDocuments_canonAll (steps : List Step) :
    Step.toDocuments (Step.canonAll steps) = Step.toDocuments steps := by
  match steps with
  | [] => rfl
  | s :: rest =>
    rw [Step.canonAll, Step.toDocuments, Step.toDocuments, Step.toDocument_canon s,
      Step.toDocuments_canonAll rest]

end

namespace Flow

/-- A flow is read back in its canonical form, unless a fixed deadline in it has no date. -/
theorem ofDocument_toDocument (f : Flow) :
    Flow.ofDocument f.toDocument = if f.isDated then .ok f.canon else .error .dateRequired := by
  rw [ofDocument, toDocument, isDated]
  dsimp only
  rw [Step.ofDocuments_toDocuments, Deadline.ofDocument?_toDocument]
  cases Step.areDated f.steps <;> cases f.due.all Deadline.isDated <;> rfl

theorem toDocument_canon (f : Flow) : f.canon.toDocument = f.toDocument := by
  simp only [toDocument, canon, Step.toDocuments_canonAll]

theorem toDocument_congr {f g : Flow} (h : f.canon = g.canon) : f.toDocument = g.toDocument := by
  rw [← f.toDocument_canon, h, g.toDocument_canon]

/-- Reading what was written gives the canonical form of a flow, which is written alike and routes
every run alike. Nothing is written that reading refuses, but for a fixed deadline without a
date. -/
theorem reads_canon (f : Flow) :
    Flow.ofDocument f.toDocument = (if f.isDated then .ok f.canon else .error .dateRequired) ∧
      f.canon.toDocument = f.toDocument ∧
      (∀ (s : Situation) (g : Guard), s.opens g.canon = s.opens g) ∧
      (∀ (s : Situation) (paths : List (Path Step)),
        s.single (Path.canonAll paths) = (s.single paths).map Path.canon ∧
          s.several (Path.canonAll paths) = (s.several paths).map Path.canon) ∧
      (∀ s : Step, s.toDocument.misplaced? s.type = none) ∧
      (∀ d : Deadline,
        Deadline.ofDocument d.toDocument = if d.isDated then .ok d else .error .dateRequired) ∧
      ∀ g : Guard,
        Guard.ofDocument g.toDocument.1 g.toDocument.2.1 g.toDocument.2.2 = .ok g.canon := by
  refine ⟨f.ofDocument_toDocument, f.toDocument_canon, Situation.opens_canon, ?_,
    Step.misplaced_toDocument, Deadline.ofDocument_toDocument, Guard.ofDocument_toDocument⟩
  intro s paths
  rw [Path.canonAll_eq]
  exact ⟨s.single_canon paths, s.several_canon paths⟩

end Flow

end Workflow
