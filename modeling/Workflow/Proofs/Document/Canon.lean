import Workflow.Flow.Outline
import Workflow.Routing

namespace Workflow

/-- A guard with its logic reset, unless it joins several clauses. -/
def Guard.canon (g : Guard) : Guard :=
  match g.clauses with
  | _ :: _ :: _ => g
  | clauses => ⟨.all, clauses⟩

mutual

def Step.canon : Step → Step
  | ⟨id, milestone, title, description, due, config, body⟩ =>
    ⟨id, milestone, title, description, due, config, body.canon⟩

def Body.canon : Body Step → Body Step
  | .branch kind join paths => .branch kind join (Path.canonAll paths)
  | .decision outcomes => .decision (Outcome.canonAll outcomes)
  | .action type quorum review => .action type quorum review
  | .subFlow template quorum => .subFlow template quorum
  | .goto target => .goto target
  | .gotoDestination label => .gotoDestination label
  | .terminate status => .terminate status

def Path.canonAll : List (Path Step) → List (Path Step)
  | [] => []
  | ⟨id, label, guard, steps⟩ :: rest =>
    ⟨id, label, guard.canon, Step.canonAll steps⟩ :: Path.canonAll rest

def Outcome.canonAll : List (Outcome Step) → List (Outcome Step)
  | [] => []
  | ⟨id, label, steps⟩ :: rest => ⟨id, label, Step.canonAll steps⟩ :: Outcome.canonAll rest

def Step.canonAll : List Step → List Step
  | [] => []
  | s :: rest => s.canon :: Step.canonAll rest

end

/-- A path with all guards on it and in it canonical. -/
def Path.canon (p : Path Step) : Path Step :=
  ⟨p.id, p.label, p.guard.canon, Step.canonAll p.steps⟩

def Flow.canon (f : Flow) : Flow :=
  { f with steps := Step.canonAll f.steps }

namespace Guard

theorem clauses_canon (g : Guard) : g.canon.clauses = g.clauses := by
  unfold canon
  split <;> simp_all

theorem canon_of_two {g : Guard} (h : 2 ≤ g.clauses.length) : g.canon = g := by
  unfold canon
  split
  · rfl
  · rename_i hfew
    match hc : g.clauses with
    | [] => simp [hc] at h
    | [c] => simp [hc] at h
    | c :: d :: rest => exact absurd hc (hfew c d rest)

theorem canon_of_few {g : Guard} (h : g.clauses.length < 2) : g.canon = ⟨.all, g.clauses⟩ := by
  unfold canon
  split
  · rename_i hc
    rw [hc] at h
    simp only [List.length_cons] at h
    omega
  · rfl

@[simp] theorem isOtherwise_canon (g : Guard) : g.canon.isOtherwise = g.isOtherwise := by
  unfold isOtherwise
  rw [clauses_canon]

@[simp] theorem canon_canon (g : Guard) : g.canon.canon = g.canon := by
  rcases Nat.lt_or_ge g.clauses.length 2 with h | h
  · rw [canon_of_few h]
    exact canon_of_few h
  · rw [canon_of_two h, canon_of_two h]

end Guard

mutual

@[simp] theorem Step.canon_canon (s : Step) : s.canon.canon = s.canon := by
  match s with
  | ⟨id, milestone, title, description, due, config, body⟩ =>
    rw [Step.canon, Step.canon, Body.canon_canon body]

@[simp] theorem Body.canon_canon (b : Body Step) : b.canon.canon = b.canon := by
  match b with
  | .branch kind join paths => rw [Body.canon, Body.canon, Path.canonAll_canonAll paths]
  | .decision outcomes => rw [Body.canon, Body.canon, Outcome.canonAll_canonAll outcomes]
  | .action _ _ _ => rfl
  | .subFlow _ _ => rfl
  | .goto _ => rfl
  | .gotoDestination _ => rfl
  | .terminate _ => rfl

theorem Path.canonAll_canonAll (paths : List (Path Step)) :
    Path.canonAll (Path.canonAll paths) = Path.canonAll paths := by
  match paths with
  | [] => rfl
  | ⟨id, label, guard, steps⟩ :: rest =>
    rw [Path.canonAll, Path.canonAll, guard.canon_canon, Step.canonAll_canonAll steps,
      Path.canonAll_canonAll rest]

theorem Outcome.canonAll_canonAll (outcomes : List (Outcome Step)) :
    Outcome.canonAll (Outcome.canonAll outcomes) = Outcome.canonAll outcomes := by
  match outcomes with
  | [] => rfl
  | ⟨id, label, steps⟩ :: rest =>
    rw [Outcome.canonAll, Outcome.canonAll, Step.canonAll_canonAll steps,
      Outcome.canonAll_canonAll rest]

theorem Step.canonAll_canonAll (steps : List Step) :
    Step.canonAll (Step.canonAll steps) = Step.canonAll steps := by
  match steps with
  | [] => rfl
  | s :: rest =>
    rw [Step.canonAll, Step.canonAll, Step.canon_canon s, Step.canonAll_canonAll rest]

end

theorem Path.canonAll_eq (paths : List (Path Step)) :
    Path.canonAll paths = paths.map Path.canon := by
  induction paths with
  | nil => rfl
  | cons p rest ih => simp [Path.canonAll, Path.canon, ih]

namespace Situation

variable (s : Situation)

/-- One clause holds or not, whichever way it is joined to nothing. -/
theorem clauses_of_few {clauses : List Clause} (h : clauses.length < 2) (logic logic' : Logic) :
    s.clauses logic false clauses = s.clauses logic' false clauses := by
  match clauses, h with
  | [], _ => rfl
  | [c], _ =>
    by_cases hc : c.comparison = .otherwise
    · simp [Situation.clauses, hc]
    · cases hb : s.clause c <;> cases logic <;> cases logic' <;>
        simp [Situation.clauses, hc, hb]

@[simp] theorem opens_canon (g : Guard) : s.opens g.canon = s.opens g := by
  unfold opens
  rcases Nat.lt_or_ge g.clauses.length 2 with h | h
  · rw [Guard.canon_of_few h]
    exact s.clauses_of_few h _ _
  · rw [Guard.canon_of_two h]

theorem firstOpen_canon (fallback : Option (Path Step)) (paths : List (Path Step)) :
    s.firstOpen (fallback.map Path.canon) (paths.map Path.canon) =
      (s.firstOpen fallback paths).map Path.canon := by
  induction paths generalizing fallback with
  | nil => rfl
  | cons p rest ih =>
    have hor : (fallback.map Path.canon).or (some p.canon) =
        (fallback.or (some p)).map Path.canon := by
      cases fallback <;> rfl
    rw [List.map_cons, firstOpen, firstOpen]
    simp only [Path.canon, Guard.isOtherwise_canon, opens_canon]
    rw [← Path.canon, hor, ih, ih]
    split
    · rfl
    · split <;> rfl

/-- A single choice takes the same path in the canonical form. -/
theorem single_canon (paths : List (Path Step)) :
    s.single (paths.map Path.canon) = (s.single paths).map Path.canon := by
  have hfind : ∀ id : String, (paths.map Path.canon).find? (fun p => p.id == id) =
      (paths.find? fun p => p.id == id).map Path.canon := by
    intro id
    rw [List.find?_map]
    rfl
  unfold single
  dsimp only
  rw [hfind]
  by_cases hselected : s.result.showAt "selectedPathId" = ""
  · rw [if_pos hselected, if_pos hselected]
    exact s.firstOpen_canon none paths
  · rw [if_neg hselected, if_neg hselected]
    cases paths.find? fun p => p.id == s.result.showAt "selectedPathId" with
    | none => exact s.firstOpen_canon none paths
    | some p => rfl

/-- So do several choices. -/
theorem several_canon (paths : List (Path Step)) :
    s.several (paths.map Path.canon) = (s.several paths).map Path.canon := by
  have hopened : (paths.map Path.canon).filter (fun p => !p.guard.isOtherwise && s.opens p.guard) =
      (paths.filter fun p => !p.guard.isOtherwise && s.opens p.guard).map Path.canon := by
    rw [List.filter_map]
    simp [Function.comp_def, Path.canon]
  have hfallback : (paths.map Path.canon).find? (fun p => p.guard.isOtherwise) =
      (paths.find? fun p => p.guard.isOtherwise).map Path.canon := by
    rw [List.find?_map]
    simp [Function.comp_def, Path.canon]
  rw [several_eq, several_eq]
  dsimp only
  rw [hopened, hfallback, List.isEmpty_map]
  split
  · cases paths.find? fun p => p.guard.isOtherwise <;> rfl
  · rfl

end Situation

end Workflow
