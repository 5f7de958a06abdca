import Workflow.Flow

namespace Workflow

mutual

/-- The id of a step and of all steps nested in it, in reading order. -/
def Step.ids : Step → List String
  | ⟨id, _, _, _, _, _, body⟩ => id :: body.ids

def Body.ids : Body Step → List String
  | .branch _ _ paths => Path.idsOf paths
  | .decision outcomes => Outcome.idsOf outcomes
  | .action _ _ _ | .subFlow _ _ | .goto _ | .gotoDestination _ | .terminate _ => []

def Path.idsOf : List (Path Step) → List String
  | [] => []
  | ⟨_, _, _, steps⟩ :: rest => Step.idsOf steps ++ Path.idsOf rest

def Outcome.idsOf : List (Outcome Step) → List String
  | [] => []
  | ⟨_, _, steps⟩ :: rest => Step.idsOf steps ++ Outcome.idsOf rest

def Step.idsOf : List Step → List String
  | [] => []
  | s :: rest => s.ids ++ Step.idsOf rest

end

def Flow.ids (f : Flow) : List String :=
  Step.idsOf f.steps

/-- The first id that was met before. -/
def firstRepeated (seen : List String) : List String → Option String
  | [] => none
  | id :: rest => if id ∈ seen then some id else firstRepeated (id :: seen) rest

def Flow.duplicateId? (f : Flow) : Option String :=
  firstRepeated [] f.ids

/-- Ids with the position of their first occurrence. -/
def positionsFrom (start : Nat) (table : List (String × Nat)) : List String →
    List (String × Nat)
  | [] => table.reverse
  | id :: rest =>
    positionsFrom (start + 1)
      (if (table.lookup id).isSome then table else (id, start) :: table) rest

/-- Every id of the flow with its position in reading order. -/
def Flow.positions (f : Flow) : List (String × Nat) :=
  positionsFrom 0 [] f.ids

inductive ScopeKind where
  | path | outcome
  deriving DecidableEq, Repr

/-- A nested scope: a path of a branch or an outcome of a decision. -/
structure Scope where
  kind : ScopeKind
  owner : String
  id : String
  deriving DecidableEq, Repr

/-- Where a step stands: its list, its index there, and the scopes around it from the outermost. -/
structure Place where
  step : Step
  siblings : List Step
  index : Nat
  scopes : List Scope

namespace Place

def onMainPath (p : Place) : Bool :=
  p.scopes.isEmpty

def next? (p : Place) : Option Step :=
  p.siblings[p.index + 1]?

def id (p : Place) : String :=
  p.step.id

end Place

mutual

def Step.walk (scopes : List Scope) (siblings : List Step) (index : Nat) : Step → List Place
  | ⟨id, milestone, title, description, due, config, body⟩ =>
    ⟨⟨id, milestone, title, description, due, config, body⟩, siblings, index, scopes⟩
      :: body.walk scopes id

def Body.walk (scopes : List Scope) (owner : String) : Body Step → List Place
  | .branch _ _ paths => Path.walkAll scopes owner paths
  | .decision outcomes => Outcome.walkAll scopes owner outcomes
  | .action _ _ _ | .subFlow _ _ | .goto _ | .gotoDestination _ | .terminate _ => []

def Path.walkAll (scopes : List Scope) (owner : String) : List (Path Step) → List Place
  | [] => []
  | ⟨id, _, _, steps⟩ :: rest =>
    Step.walkAll (scopes ++ [⟨.path, owner, id⟩]) steps 0 steps ++
      Path.walkAll scopes owner rest

def Outcome.walkAll (scopes : List Scope) (owner : String) : List (Outcome Step) → List Place
  | [] => []
  | ⟨id, _, steps⟩ :: rest =>
    Step.walkAll (scopes ++ [⟨.outcome, owner, id⟩]) steps 0 steps ++
      Outcome.walkAll scopes owner rest

/-- The places of `rest`, which stands in `siblings` from `index` on. -/
def Step.walkAll (scopes : List Scope) (siblings : List Step) (index : Nat) :
    List Step → List Place
  | [] => []
  | s :: rest => s.walk scopes siblings index ++ Step.walkAll scopes siblings (index + 1) rest

end

/-- All places of a flow in reading order: a step comes before the steps nested in it. -/
def Flow.places (f : Flow) : List Place :=
  Step.walkAll [] f.steps 0 f.steps

def Place.scope? (p : Place) : Option Scope :=
  p.scopes.getLast?

/-- Whether the owner of every innermost scope that is not in `outer` is found among `before` or
earlier in the list itself. -/
def OwnedFrom (outer : List Scope) (before : List String) : List Place → Prop
  | [] => True
  | p :: rest =>
    (p.scopes = outer ∨ ∃ s, p.scope? = some s ∧ s.owner ∈ before)
      ∧ OwnedFrom outer (before ++ [p.id]) rest

theorem OwnedFrom.mono {outer : List Scope} {places : List Place} {before more : List String}
    (h : OwnedFrom outer before places) (hs : ∀ x ∈ before, x ∈ more) :
    OwnedFrom outer more places := by
  induction places generalizing before more with
  | nil => trivial
  | cons p rest ih =>
    refine ⟨?_, ih h.2 ?_⟩
    · rcases h.1 with h | ⟨s, hs', hm⟩
      · exact .inl h
      · exact .inr ⟨s, hs', hs _ hm⟩
    · intro x hx
      simp only [List.mem_append, List.mem_singleton] at hx ⊢
      rcases hx with hx | hx
      · exact .inl (hs x hx)
      · exact .inr hx

theorem OwnedFrom.append {outer : List Scope} {ps qs : List Place} {before : List String}
    (hp : OwnedFrom outer before ps) (hq : OwnedFrom outer before qs) :
    OwnedFrom outer before (ps ++ qs) := by
  induction ps generalizing before with
  | nil => exact hq
  | cons p rest ih =>
    refine ⟨hp.1, ih hp.2 (hq.mono ?_)⟩
    intro x hx
    simp [hx]

/-- Places of a scope whose owner is known count as owned on the level around it. -/
theorem OwnedFrom.leave {outer : List Scope} {s : Scope} {places : List Place}
    {before : List String}
    (h : OwnedFrom (outer ++ [s]) before places) (hs : s.owner ∈ before) :
    OwnedFrom outer before places := by
  induction places generalizing before with
  | nil => trivial
  | cons p rest ih =>
    refine ⟨?_, ih h.2 (by simp [hs])⟩
    rcases h.1 with he | hm
    · exact .inr ⟨s, by simp [Place.scope?, he], hs⟩
    · exact .inr hm

mutual

theorem Step.owned_walk (scopes : List Scope) (siblings : List Step) (index : Nat) (s : Step)
    (before : List String) : OwnedFrom scopes before (s.walk scopes siblings index) := by
  match s with
  | ⟨id, _, _, _, _, _, body⟩ =>
    rw [Step.walk]
    refine ⟨.inl rfl, ?_⟩
    exact Body.owned_walk scopes id body _ (by simp [Place.id])

theorem Body.owned_walk (scopes : List Scope) (owner : String) (b : Body Step)
    (before : List String) (h : owner ∈ before) :
    OwnedFrom scopes before (b.walk scopes owner) := by
  match b with
  | .branch _ _ paths =>
    rw [Body.walk]
    exact Path.owned_walkAll scopes owner paths before h
  | .decision outcomes =>
    rw [Body.walk]
    exact Outcome.owned_walkAll scopes owner outcomes before h
  | .action _ _ _ => simp [Body.walk, OwnedFrom]
  | .subFlow _ _ => simp [Body.walk, OwnedFrom]
  | .goto _ => simp [Body.walk, OwnedFrom]
  | .gotoDestination _ => simp [Body.walk, OwnedFrom]
  | .terminate _ => simp [Body.walk, OwnedFrom]

theorem Path.owned_walkAll (scopes : List Scope) (owner : String) (paths : List (Path Step))
    (before : List String) (h : owner ∈ before) :
    OwnedFrom scopes before (Path.walkAll scopes owner paths) := by
  match paths with
  | [] => simp [Path.walkAll, OwnedFrom]
  | ⟨id, _, _, steps⟩ :: rest =>
    rw [Path.walkAll]
    exact (OwnedFrom.leave (Step.owned_walkAll _ steps 0 steps before) h).append
      (Path.owned_walkAll scopes owner rest before h)

theorem Outcome.owned_walkAll (scopes : List Scope) (owner : String)
    (outcomes : List (Outcome Step))
    (before : List String) (h : owner ∈ before) :
    OwnedFrom scopes before (Outcome.walkAll scopes owner outcomes) := by
  match outcomes with
  | [] => simp [Outcome.walkAll, OwnedFrom]
  | ⟨id, _, steps⟩ :: rest =>
    rw [Outcome.walkAll]
    exact (OwnedFrom.leave (Step.owned_walkAll _ steps 0 steps before) h).append
      (Outcome.owned_walkAll scopes owner rest before h)

theorem Step.owned_walkAll (scopes : List Scope) (siblings : List Step) (index : Nat)
    (steps : List Step) (before : List String) :
    OwnedFrom scopes before (Step.walkAll scopes siblings index steps) := by
  match steps with
  | [] => simp [Step.walkAll, OwnedFrom]
  | s :: rest =>
    rw [Step.walkAll]
    exact (Step.owned_walk scopes siblings index s before).append
      (Step.owned_walkAll scopes siblings (index + 1) rest before)

end

/-- The places of a flow, with the fact that lets one climb out of any of them: the owner of the
scope around a place comes before the place. -/
structure Outline where
  places : List Place
  owned : OwnedFrom [] [] places

def Flow.outline (f : Flow) : Outline :=
  ⟨f.places, Step.owned_walkAll [] f.steps 0 f.steps []⟩

/-- The owner of a scope comes before the places in it. -/
theorem OwnedFrom.owner_before {before : List String} {places : List Place}
    (h : OwnedFrom [] before places) {i : Nat} (hi : i < places.length) {s : Scope}
    (hs : places[i].scope? = some s) : s.owner ∈ before ++ (places.take i).map Place.id := by
  induction places generalizing before i with
  | nil => simp at hi
  | cons p rest ih =>
    cases i with
    | zero =>
      rcases h.1 with he | ⟨s', hs', hm⟩
      · simp [Place.scope?, he] at hs
      · simp only [List.getElem_cons_zero] at hs
        rw [hs'] at hs
        cases hs
        simpa using hm
    | succ i =>
      have := ih h.2 (by simpa using hi) (by simpa using hs)
      simpa using this

namespace Outline

def indexOf? (o : Outline) (id : String) : Option (Fin o.places.length) :=
  o.places.findFinIdx? fun p => p.id == id

def find? (o : Outline) (id : String) : Option Place :=
  o.places.find? fun p => p.id == id

def place (o : Outline) (i : Fin o.places.length) : Place :=
  o.places[i]

/-- The owner of the scope around a place comes before the place, also when ids repeat. -/
theorem indexOf?_owner_lt (o : Outline) {i j : Fin o.places.length} {s : Scope}
    (hs : (o.place i).scope? = some s) (hj : o.indexOf? s.owner = some j) : j < i := by
  have hm := o.owned.owner_before i.isLt hs
  simp only [List.nil_append, List.mem_map] at hm
  obtain ⟨p, hp, hid⟩ := hm
  obtain ⟨k, hk, rfl⟩ := List.getElem_of_mem hp
  simp only [List.length_take] at hk
  simp only [List.getElem_take] at hid
  have hfirst := (List.findFinIdx?_eq_some_iff.1 hj).2
  rcases Nat.lt_or_ge j.val i.val with h | h
  · exact h
  · exfalso
    have := hfirst ⟨k, by omega⟩ (by show k < j.val; omega)
    simp [hid] at this

end Outline

namespace Flow

def find? (f : Flow) (id : String) : Option Place :=
  f.places.find? fun p => p.id == id

end Flow

end Workflow
