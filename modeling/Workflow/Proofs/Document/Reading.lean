import Workflow.Findings
import Workflow.Proofs.Document.RoundTrip
import Workflow.Proofs.Tree

namespace Workflow

theorem Step.canonAll_eq (steps : List Step) : Step.canonAll steps = steps.map Step.canon := by
  induction steps with
  | nil => rfl
  | cons s rest ih => rw [Step.canonAll, ih, List.map_cons]

def Outcome.canon (o : Outcome Step) : Outcome Step :=
  ⟨o.id, o.label, Step.canonAll o.steps⟩

theorem Outcome.canonAll_eq (outcomes : List (Outcome Step)) :
    Outcome.canonAll outcomes = outcomes.map Outcome.canon := by
  induction outcomes with
  | nil => rfl
  | cons o rest ih => simp [Outcome.canonAll, Outcome.canon, ih]

namespace Step

theorem canon_eq (s : Step) : s.canon = { s with body := s.body.canon } := by
  obtain ⟨id, milestone, title, description, due, config, body⟩ := s
  rfl

@[simp] theorem id_canon (s : Step) : s.canon.id = s.id := by
  rw [canon_eq]

@[simp] theorem milestone_canon (s : Step) : s.canon.milestone = s.milestone := by
  rw [canon_eq]

@[simp] theorem due_canon (s : Step) : s.canon.due = s.due := by
  rw [canon_eq]

@[simp] theorem body_canon (s : Step) : s.canon.body = s.body.canon := by
  rw [canon_eq]

@[simp] theorem map_canon_map_canon (steps : List Step) :
    (steps.map canon).map canon = steps.map canon := by
  rw [List.map_map]
  exact List.map_congr_left fun s _ => s.canon_canon

end Step

@[simp] theorem Path.canon_canon (p : Path Step) : p.canon.canon = p.canon := by
  simp [Path.canon, Step.canonAll_eq]

@[simp] theorem Outcome.canon_canon (o : Outcome Step) : o.canon.canon = o.canon := by
  simp [Outcome.canon, Step.canonAll_eq]

@[simp] theorem Flow.canon_canon (f : Flow) : f.canon.canon = f.canon := by
  simp [Flow.canon, Step.canonAll_eq]

theorem Flow.canon_eq_iff {f g : Flow} : f.canon = g.canon ↔
    f.id = g.id ∧ f.name = g.name ∧ f.milestones = g.milestones ∧
      f.steps.map Step.canon = g.steps.map Step.canon ∧ f.due = g.due := by
  simp [Flow.canon, Step.canonAll_eq]

def Place.canon (p : Place) : Place :=
  ⟨p.step.canon, p.siblings.map Step.canon, p.index, p.scopes⟩

@[simp] theorem Place.id_canon (p : Place) : p.canon.id = p.id :=
  p.step.id_canon

namespace Step

theorem inner_canon (s : Step) :
    s.canon.inner = s.inner.map fun i => (i.1, i.2.map Step.canon) := by
  obtain ⟨id, milestone, title, description, due, config, body⟩ := s
  cases body <;>
    simp [inner, canon, Body.canon, Path.canonAll_eq, Outcome.canonAll_eq, Path.canon,
      Outcome.canon, Step.canonAll_eq]

theorem walkAll_canon {scopes : List Scope} {siblings rest : List Step} {index : Nat}
    (h : ∀ s ∈ rest, ∀ scopes siblings index, s.canon.walk scopes (siblings.map canon) index =
      (s.walk scopes siblings index).map Place.canon) :
    Step.walkAll scopes (siblings.map canon) index (rest.map canon) =
      (Step.walkAll scopes siblings index rest).map Place.canon := by
  induction rest generalizing index with
  | nil => simp [Step.walkAll]
  | cons s rest ih =>
    rw [List.map_cons, Step.walkAll, Step.walkAll, List.map_append, h s List.mem_cons_self,
      ih fun t ht => h t (List.mem_cons_of_mem s ht)]

theorem walk_canon (s : Step) :
    ∀ (scopes : List Scope) (siblings : List Step) (index : Nat),
      s.canon.walk scopes (siblings.map canon) index =
        (s.walk scopes siblings index).map Place.canon := by
  induction s using Step.induction_inner with
  | h s ih =>
    intro scopes siblings index
    rw [walk_eq, walk_eq, List.map_cons, List.map_flatMap, inner_canon, List.flatMap_map]
    congr 1
    apply List.flatMap_congr
    intro i hi
    exact walkAll_canon (ih i hi)

@[simp] theorem ids_canon (s : Step) : s.canon.ids = s.ids := by
  have hid : Place.id ∘ Place.canon = Place.id := funext Place.id_canon
  have hwalk := congrArg (List.map Place.id) (s.walk_canon [] [] 0)
  rwa [List.map_map, hid, map_id_walk, map_id_walk] at hwalk

@[simp] theorem idsOf_canon (steps : List Step) : idsOf (steps.map canon) = idsOf steps := by
  simp [idsOf_eq, List.flatMap_map]

end Step

namespace Flow

@[simp] theorem id_canon (f : Flow) : f.canon.id = f.id :=
  rfl

theorem places_canon (f : Flow) : f.canon.places = f.places.map Place.canon := by
  rw [places, canon, Step.canonAll_eq]
  exact Step.walkAll_canon fun s _ => s.walk_canon

@[simp] theorem ids_canon (f : Flow) : f.canon.ids = f.ids := by
  rw [ids, canon, Step.canonAll_eq]
  exact Step.idsOf_canon f.steps

theorem find?_canon (f : Flow) (id : String) :
    f.canon.find? id = (f.find? id).map Place.canon := by
  have hid : (fun p : Place => p.id == id) ∘ Place.canon = fun p => p.id == id := by
    funext p
    exact congrArg (· == id) p.id_canon
  rw [find?, places_canon, List.find?_map, hid, find?]

end Flow

section Findings

theorem Step.type_canon (s : Step) : s.canon.type = s.type := by
  rw [Step.type, Step.body_canon, Body.type_canon, Step.type]

namespace Inspection

variable (k : Inspection)

def canon : Inspection :=
  { k with flow := k.flow.canon }

theorem targetProblems_canon (target : String) :
    k.canon.targetProblems target = k.targetProblems target := by
  unfold targetProblems
  rw [canon, Flow.find?_canon]
  cases k.flow.find? target with
  | none => rfl
  | some p =>
    simp [Place.canon, Place.onMainPath, Step.type_canon]

theorem guardProblems_canon (kind : BranchKind) (path : String) (g : Guard) :
    k.canon.guardProblems kind path g.canon = k.guardProblems kind path g := by
  simp [guardProblems, canon, Guard.clauses_canon]

theorem pathFindings_canon (site : Site) (step : String) (kind : BranchKind) (index : Nat)
    (seen : List String) (paths : List (Path Step)) :
    k.canon.pathFindings site step kind index seen (paths.map Path.canon) =
      k.pathFindings site step kind index seen paths := by
  induction paths generalizing index seen with
  | nil => rfl
  | cons p rest ih =>
    rw [List.map_cons, pathFindings, pathFindings, ih, ← k.guardProblems_canon kind p.id p.guard]
    rfl

theorem outcomeFindings_canon (site : Site) (step : String) (index : Nat) (seen : List String)
    (outcomes : List (Outcome Step)) :
    outcomeFindings site step index seen (outcomes.map Outcome.canon) =
      outcomeFindings site step index seen outcomes := by
  induction outcomes generalizing index seen with
  | nil => rfl
  | cons o rest ih =>
    rw [List.map_cons, outcomeFindings, outcomeFindings, ih]
    rfl

/-- The checker finds the same on a step and on its canonical form. -/
theorem stepFindings_canon (owner : Option Step) (site : Site) (seen : List String) (s : Step) :
    k.canon.stepFindings (owner.map Step.canon) site seen s.canon =
      k.stepFindings owner site seen s := by
  have hinside : ∀ types, isInside (owner.map Step.canon) types = isInside owner types := by
    intro types
    cases owner with
    | none => rfl
    | some o => simp [isInside, Step.type_canon]
  have hid : idProblems seen s.canon = idProblems seen s := by
    simp [idProblems]
  have hmilestone : k.canon.milestoneProblems (owner.map Step.canon) s.canon =
      k.milestoneProblems owner s := by
    cases owner <;> simp [milestoneProblems, canon, Flow.canon, Step.type_canon]
  have hplacement : k.canon.placementProblems (owner.map Step.canon) s.canon =
      k.placementProblems owner s := by
    unfold placementProblems
    rw [Step.body_canon]
    cases s.body <;> simp [Body.canon, hinside, targetProblems_canon] <;> rfl
  have hbody : k.canon.bodyFindings site s.canon = k.bodyFindings site s := by
    unfold bodyFindings
    rw [Step.body_canon]
    cases s.body <;> simp [Body.canon, Path.canonAll_eq, Outcome.canonAll_eq, pathFindings_canon,
      outcomeFindings_canon] <;> rfl
  rw [stepFindings, stepFindings, hid, hmilestone, hplacement, hbody]

end Inspection

def Surroundings.canon (around : Surroundings) : Surroundings :=
  { around with owner := around.owner.map Step.canon }

mutual

theorem Step.findings_canon (k : Inspection) (around : Surroundings) (index : Nat)
    (seen : List String) (s : Step) :
    s.canon.findings k.canon around.canon index seen = s.findings k around index seen := by
  match s with
  | ⟨id, milestone, title, description, due, config, body⟩ =>
    have hstep := k.stepFindings_canon around.owner (around.site ++ [(.steps, index)]) seen
      ⟨id, milestone, title, description, due, config, body⟩
    have hbody := Body.findings_canon k ⟨around.site ++ [(.steps, index)], around.depth + 1,
      some ⟨id, milestone, title, description, due, config, body⟩⟩ (id :: seen) body
    rw [Step.canon, Step.findings, Step.findings, ← hstep, ← hbody]
    rfl

theorem Body.findings_canon (k : Inspection) (around : Surroundings) (seen : List String)
    (b : Body Step) : b.canon.findings k.canon around.canon seen = b.findings k around seen := by
  match b with
  | .branch _ _ paths =>
    rw [Body.canon, Body.findings, Body.findings]
    exact Path.findingsAll_canon k around 0 seen paths
  | .decision outcomes =>
    rw [Body.canon, Body.findings, Body.findings]
    exact Outcome.findingsAll_canon k around 0 seen outcomes
  | .action _ _ _ => rfl
  | .subFlow _ _ => rfl
  | .goto _ => rfl
  | .gotoDestination _ => rfl
  | .terminate _ => rfl

theorem Path.findingsAll_canon (k : Inspection) (around : Surroundings) (index : Nat)
    (seen : List String) (paths : List (Path Step)) :
    Path.findingsAll k.canon around.canon index seen (Path.canonAll paths) =
      Path.findingsAll k around index seen paths := by
  match paths with
  | [] => rfl
  | ⟨id, label, guard, steps⟩ :: rest =>
    have hsteps := Step.findingsAll_canon k
      { around with site := around.site ++ [(.paths, index)] } 0 seen steps
    have hids : Step.idsOf (Step.canonAll steps) = Step.idsOf steps := by
      rw [Step.canonAll_eq, Step.idsOf_canon]
    rw [Path.canonAll, Path.findingsAll, Path.findingsAll, hids,
      Path.findingsAll_canon k around (index + 1) _ rest, ← hsteps]
    rfl

theorem Outcome.findingsAll_canon (k : Inspection) (around : Surroundings) (index : Nat)
    (seen : List String) (outcomes : List (Outcome Step)) :
    Outcome.findingsAll k.canon around.canon index seen (Outcome.canonAll outcomes) =
      Outcome.findingsAll k around index seen outcomes := by
  match outcomes with
  | [] => rfl
  | ⟨id, label, steps⟩ :: rest =>
    have hsteps := Step.findingsAll_canon k
      { around with site := around.site ++ [(.outcomes, index)] } 0 seen steps
    have hids : Step.idsOf (Step.canonAll steps) = Step.idsOf steps := by
      rw [Step.canonAll_eq, Step.idsOf_canon]
    rw [Outcome.canonAll, Outcome.findingsAll, Outcome.findingsAll, hids,
      Outcome.findingsAll_canon k around (index + 1) _ rest, ← hsteps]
    rfl

theorem Step.findingsAll_canon (k : Inspection) (around : Surroundings) (index : Nat)
    (seen : List String) (steps : List Step) :
    Step.findingsAll k.canon around.canon index seen (Step.canonAll steps) =
      Step.findingsAll k around index seen steps := by
  match steps with
  | [] => rfl
  | s :: rest =>
    rw [Step.canonAll, Step.findingsAll, Step.findingsAll,
      Step.findings_canon k around index seen s, Step.ids_canon,
      Step.findingsAll_canon k around (index + 1) _ rest]

end

/-- The checker finds the same in a flow and in its canonical form. -/
theorem Flow.findings_canon (limits : Constraints) (f : Flow) :
    f.canon.findings limits = f.findings limits := by
  rw [Flow.findings, Flow.findings]
  exact congrArg (Milestone.findings 0 [] f.milestones ++ ·)
    (Step.findingsAll_canon ⟨f, limits⟩ ⟨[], 0, none⟩ 0 [] f.steps)

end Findings

end Workflow
