import Workflow.Proofs.Edit.Ids
import Workflow.Proofs.ReadingOrder

namespace Workflow

/-- What a visitor notes at a place, and whether the traversal ends there. -/
abbrev Visitor (σ : Type) := Place → σ → σ × Bool

/-- A traversal under way: the scopes it is inside of, the notes so far, and whether it is over. -/
structure Traversal (σ : Type) where
  scopes : List Scope
  notes : σ
  ended : Bool

namespace Traversal

variable {σ : Type}

def visit (visitor : Visitor σ) (p : Place) (t : Traversal σ) : Traversal σ :=
  { t with notes := (visitor p t.notes).1, ended := (visitor p t.notes).2 }

def go (next : Traversal σ → Traversal σ) (t : Traversal σ) : Traversal σ :=
  if t.ended then t else next t

def enter (scope : Scope) (t : Traversal σ) : Traversal σ :=
  { t with scopes := t.scopes ++ [scope] }

def leave (t : Traversal σ) : Traversal σ :=
  { t with scopes := t.scopes.dropLast }

/-- Goes through a scope. The scope is left also when the traversal ends in there. -/
def through (scope : Scope) (inside : Traversal σ → Traversal σ) : Traversal σ →
    Traversal σ :=
  go fun t => (inside (t.enter scope)).leave

end Traversal

section

variable {σ : Type} (visitor : Visitor σ)

mutual

def Step.traverse (siblings : List Step) (index : Nat) : Step → Traversal σ → Traversal σ
  | ⟨id, milestone, title, description, due, config, body⟩, t =>
    (t.visit visitor
      ⟨⟨id, milestone, title, description, due, config, body⟩, siblings, index,
        t.scopes⟩).go
      (body.traverse id)

def Body.traverse (owner : String) : Body Step → Traversal σ → Traversal σ
  | .branch _ _ paths, t => Path.traverseAll owner paths t
  | .decision outcomes, t => Outcome.traverseAll owner outcomes t
  | .action _ _ _, t | .subFlow _ _, t | .goto _, t | .gotoDestination _, t | .terminate _, t => t

def Path.traverseAll (owner : String) : List (Path Step) → Traversal σ → Traversal σ
  | [], t => t
  | ⟨id, _, _, steps⟩ :: rest, t =>
    Path.traverseAll owner rest (t.through ⟨.path, owner, id⟩ (Step.traverseAll steps 0 steps))

def Outcome.traverseAll (owner : String) : List (Outcome Step) → Traversal σ → Traversal σ
  | [], t => t
  | ⟨id, _, steps⟩ :: rest, t =>
    Outcome.traverseAll owner rest
      (t.through ⟨.outcome, owner, id⟩ (Step.traverseAll steps 0 steps))

/-- Traverses `rest`, which stands in `siblings` from `index` on. -/
def Step.traverseAll (siblings : List Step) (index : Nat) : List Step →
    Traversal σ → Traversal σ
  | [], t => t
  | s :: rest, t => (s.traverse siblings index t).go (Step.traverseAll siblings (index + 1) rest)

end

/-- What a visitor has noted when the traversal of a list of steps and of all below it is over. -/
def Step.traversed (notes : σ) (steps : List Step) : σ :=
  (Step.traverseAll visitor steps 0 steps ⟨[], notes, false⟩).notes

end

namespace Traversal

variable {σ : Type} {visitor : Visitor σ} {t : Traversal σ}

/-- Comes by one place after the other, unless the traversal is over. -/
def along (visitor : Visitor σ) (places : List Place) (t : Traversal σ) : Traversal σ :=
  places.foldl (fun t p => t.go (visit visitor p)) t

theorem go_of_ended (h : t.ended = true) (next : Traversal σ → Traversal σ) : t.go next = t :=
  if_pos h

theorem go_of_not_ended (h : t.ended = false) (next : Traversal σ → Traversal σ) :
    t.go next = next t :=
  if_neg (by simp [h])

theorem along_cons (p : Place) (places : List Place) :
    t.along visitor (p :: places) = (t.go (visit visitor p)).along visitor places := rfl

theorem along_append (before behind : List Place) :
    t.along visitor (before ++ behind) = (t.along visitor before).along visitor behind :=
  List.foldl_append

theorem along_of_ended (h : t.ended = true) (places : List Place) : t.along visitor places = t := by
  induction places with
  | nil => rfl
  | cons p rest ih => rw [along_cons, go_of_ended h, ih]

theorem go_along (places : List Place) : t.go (along visitor places) = t.along visitor places := by
  cases h : t.ended with
  | true => rw [go_of_ended h, along_of_ended h]
  | false => rw [go_of_not_ended h]

theorem scopes_along (places : List Place) : (t.along visitor places).scopes = t.scopes := by
  induction places generalizing t with
  | nil => rfl
  | cons p rest ih =>
    rw [along_cons, ih]
    unfold go
    split <;> rfl

theorem leave_enter (scope : Scope) : (t.enter scope).leave = t := by
  simp [enter, leave]

theorem enter_along (scope : Scope) (places : List Place) :
    (t.enter scope).along visitor places = (t.along visitor places).enter scope := by
  induction places generalizing t with
  | nil => rfl
  | cons p rest ih =>
    have hgo : (t.enter scope).go (visit visitor p) = (t.go (visit visitor p)).enter scope := by
      cases h : t.ended with
      | true => rw [go_of_ended h, go_of_ended (t := t.enter scope) h]
      | false => rw [go_of_not_ended h, go_of_not_ended (t := t.enter scope) h]; rfl
    rw [along_cons, along_cons, hgo, ih]

/-- Going through a scope comes by the places in there, with the scope around them, and leaves the
scopes as they were. -/
theorem through_eq {inside : Traversal σ → Traversal σ} (places : List Scope → List Place)
    (h : ∀ t : Traversal σ, t.ended = false → inside t = t.along visitor (places t.scopes))
    (scope : Scope) (t : Traversal σ) :
    t.through scope inside = t.along visitor (places (t.scopes ++ [scope])) := by
  rw [← go_along]
  cases hended : t.ended with
  | true => rw [through, go_of_ended hended, go_of_ended hended]
  | false =>
    rw [through, go_of_not_ended hended, go_of_not_ended hended, h (t.enter scope) hended,
      enter_along, leave_enter]
    rfl

/-- Going on behind some places comes by the places behind them. -/
theorem go_eq {next : Traversal σ → Traversal σ} (places : List Scope → List Place)
    (h : ∀ t : Traversal σ, t.ended = false → next t = t.along visitor (places t.scopes))
    (t : Traversal σ) : t.go next = t.along visitor (places t.scopes) := by
  rw [← go_along]
  cases hended : t.ended with
  | true => rw [go_of_ended hended, go_of_ended hended]
  | false => rw [go_of_not_ended hended, go_of_not_ended hended, h t hended]

end Traversal

section

variable {σ : Type} (visitor : Visitor σ)

mutual

theorem Step.traverse_eq (siblings : List Step) (index : Nat) (s : Step) (t : Traversal σ)
    (h : t.ended = false) :
    s.traverse visitor siblings index t = t.along visitor (s.walk t.scopes siblings index) := by
  match s with
  | ⟨id, milestone, title, description, due, config, body⟩ =>
    rw [Step.traverse, Step.walk, Traversal.along_cons, Traversal.go_of_not_ended h]
    exact Traversal.go_eq (fun scopes => body.walk scopes id)
      (fun t _ => Body.traverse_eq id body t) _

/-- Going through the body of a step is going along its outline. -/
theorem Body.traverse_eq (owner : String) (b : Body Step) (t : Traversal σ) :
    b.traverse visitor owner t = t.along visitor (b.walk t.scopes owner) := by
  match b with
  | .branch _ _ paths =>
    rw [Body.traverse, Body.walk]
    exact Path.traverseAll_eq owner paths t
  | .decision outcomes =>
    rw [Body.traverse, Body.walk]
    exact Outcome.traverseAll_eq owner outcomes t
  | .action _ _ _ => rw [Body.traverse, Body.walk]; rfl
  | .subFlow _ _ => rw [Body.traverse, Body.walk]; rfl
  | .goto _ => rw [Body.traverse, Body.walk]; rfl
  | .gotoDestination _ => rw [Body.traverse, Body.walk]; rfl
  | .terminate _ => rw [Body.traverse, Body.walk]; rfl

theorem Path.traverseAll_eq (owner : String) (paths : List (Path Step)) (t : Traversal σ) :
    Path.traverseAll visitor owner paths t =
      t.along visitor (Path.walkAll t.scopes owner paths) := by
  match paths with
  | [] => rw [Path.traverseAll, Path.walkAll]; rfl
  | ⟨id, _, _, steps⟩ :: rest =>
    have hthrough := Traversal.through_eq (fun scopes => Step.walkAll scopes steps 0 steps)
      (Step.traverseAll_eq steps 0 steps) ⟨.path, owner, id⟩ t
    rw [Path.traverseAll, Path.walkAll, hthrough, Path.traverseAll_eq, Traversal.scopes_along,
      Traversal.along_append]

theorem Outcome.traverseAll_eq (owner : String) (outcomes : List (Outcome Step))
    (t : Traversal σ) :
    Outcome.traverseAll visitor owner outcomes t =
      t.along visitor (Outcome.walkAll t.scopes owner outcomes) := by
  match outcomes with
  | [] => rw [Outcome.traverseAll, Outcome.walkAll]; rfl
  | ⟨id, _, steps⟩ :: rest =>
    have hthrough := Traversal.through_eq (fun scopes => Step.walkAll scopes steps 0 steps)
      (Step.traverseAll_eq steps 0 steps) ⟨.outcome, owner, id⟩ t
    rw [Outcome.traverseAll, Outcome.walkAll, hthrough, Outcome.traverseAll_eq,
      Traversal.scopes_along, Traversal.along_append]

theorem Step.traverseAll_eq (siblings : List Step) (index : Nat) (rest : List Step)
    (t : Traversal σ) (h : t.ended = false) :
    Step.traverseAll visitor siblings index rest t =
      t.along visitor (Step.walkAll t.scopes siblings index rest) := by
  match rest with
  | [] => rw [Step.traverseAll, Step.walkAll]; rfl
  | s :: rest =>
    rw [Step.traverseAll, Step.walkAll, Step.traverse_eq siblings index s t h,
      Traversal.along_append]
    have hgo := Traversal.go_eq (fun scopes => Step.walkAll scopes siblings (index + 1) rest)
      (Step.traverseAll_eq siblings (index + 1) rest)
      (t.along visitor (s.walk t.scopes siblings index))
    rwa [Traversal.scopes_along] at hgo

end

end

def seeking (id : String) : Visitor (Option Place) := fun p found =>
  if p.id = id then (some p, true) else (found, false)

def noting {σ : Type} (note : String → σ → σ) : Visitor σ := fun p notes =>
  (note p.id notes, false)

def numbered (id : String) : List (String × Nat) × Nat → List (String × Nat) × Nat
  | (table, next) => (if (table.lookup id).isSome then table else (id, next) :: table, next + 1)

/-- The first step with an id, found by a traversal. -/
def Step.sought? (id : String) (steps : List Step) : Option Place :=
  Step.traversed (seeking id) none steps

/-- The ids of steps and of all steps nested in them, collected by a traversal. -/
def Step.collected (steps : List Step) : List String :=
  Step.traversed (noting fun id ids => ids ++ [id]) [] steps

def Flow.numbers (f : Flow) : List (String × Nat) :=
  (Step.traversed (noting numbered) ([], 0) f.steps).1.reverse

theorem Traversal.along_seeking (id : String) (places : List Place) (t : Traversal (Option Place))
    (h : t.ended = false) :
    (t.along (seeking id) places).notes = (places.find? fun p => p.id == id).or t.notes := by
  induction places generalizing t with
  | nil => rfl
  | cons p rest ih =>
    rw [along_cons, go_of_not_ended h]
    by_cases hp : p.id = id
    · rw [along_of_ended (by simp [visit, seeking, hp]),
        List.find?_cons_of_pos (by simpa using hp)]
      simp [visit, seeking, hp]
    · rw [ih _ (by simp [visit, seeking, hp]), List.find?_cons_of_neg (by simpa using hp)]
      simp [visit, seeking, hp]

theorem Traversal.along_noting {σ : Type} (note : String → σ → σ) (places : List Place)
    (t : Traversal σ) (h : t.ended = false) :
    (t.along (noting note) places).notes =
      (places.map Place.id).foldl (fun notes id => note id notes) t.notes := by
  induction places generalizing t with
  | nil => rfl
  | cons p rest ih =>
    rw [along_cons, go_of_not_ended h, ih _ rfl]
    rfl

/-- A visitor who only notes ids notes the ids of the outline, in their order. -/
theorem Step.traversed_noting {σ : Type} (note : String → σ → σ) (notes : σ)
    (steps : List Step) :
    Step.traversed (noting note) notes steps =
      (Step.idsOf steps).foldl (fun notes id => note id notes) notes := by
  rw [traversed, traverseAll_eq _ steps 0 steps _ rfl, Traversal.along_noting note _ _ rfl,
    map_id_walkAll fun s _ => s.map_id_walk]

theorem Step.collected_eq (steps : List Step) : Step.collected steps = Step.idsOf steps := by
  have hcollect : ∀ before ids : List String,
      ids.foldl (fun ids id => ids ++ [id]) before = before ++ ids := by
    intro before ids
    induction ids generalizing before with
    | nil => simp
    | cons id rest ih => simp [ih]
  rw [collected, traversed_noting, hcollect, List.nil_append]

theorem foldl_numbered (ids : List String) (table : List (String × Nat)) (start : Nat) :
    (ids.foldl (fun notes id => numbered id notes) (table, start)).1.reverse =
      positionsFrom start table ids := by
  induction ids generalizing table start with
  | nil => rfl
  | cons id rest ih => rw [List.foldl_cons, numbered, ih, positionsFrom]

/-- The steps of a scope, looked up from the list its owner stands in. -/
def Scope.stepsFrom? (scope : Scope) (steps : List Step) : Option (List Step) :=
  (Siblings.find? scope.owner steps).bind fun s =>
    (s.inner.find? fun i => i.1.id == scope.id).map Prod.snd

namespace Flow

variable {f : Flow}

theorem sought?_eq (id : String) : Step.sought? id f.steps = f.find? id := by
  rw [Step.sought?, Step.traversed, Step.traverseAll_eq _ f.steps 0 f.steps _ rfl,
    Traversal.along_seeking id _ _ rfl, Option.or_none]
  rfl

theorem numbers_eq : f.numbers = f.positions := by
  rw [numbers, Step.traversed_noting, foldl_numbered]
  rfl

/-- The list that scopes lead to from the main path, one after the other. -/
def follow? (f : Flow) (scopes : List Scope) : Option (List Step) :=
  scopes.foldlM (fun steps scope => scope.stepsFrom? steps) f.steps

/-- No step owns two scopes with one id. -/
def ScopesDiffer (f : Flow) : Prop :=
  ∀ p ∈ f.places, (p.step.inner.map fun i => i.1.id).Nodup

instance (f : Flow) : Decidable f.ScopesDiffer :=
  inferInstanceAs (Decidable (∀ p ∈ f.places, (p.step.inner.map fun i => i.1.id).Nodup))

/-- The scopes around a place lead from the main path to the list that it stands in. -/
theorem Has.follow? (unique : f.ids.Nodup) (differ : f.ScopesDiffer) {p : Place} (hp : f.Has p) :
    f.follow? p.scopes = some p.siblings := by
  induction hp with
  | main _ => rfl
  | @inner o scope steps k s ho hi hs ih =>
    have howner : Siblings.find? scope.owner o.siblings = some o.step := by
      rw [Step.owner_of_inner hi]
      exact (grafts_of_find? (ho.find? unique)).2
    have hscope : (o.step.inner.find? fun i => i.1.id == scope.id) = some (scope, steps) := by
      cases hfind : o.step.inner.find? fun i => i.1.id == scope.id with
      | none => exact absurd (List.find?_eq_none.mp hfind _ hi) (by simp)
      | some i =>
        have hid : i.1.id = scope.id := by simpa using List.find?_some hfind
        have hmem := List.mem_of_find?_eq_some hfind
        exact congrArg some
          (List.inj_on_of_nodup_map (differ o (mem_places_iff.mpr ho)) hmem hi hid)
    have hlast : scope.stepsFrom? o.siblings = some steps := by
      rw [Scope.stepsFrom?, howner, Option.bind_some, hscope, Option.map_some]
    unfold Flow.follow? at ih ⊢
    rw [List.foldlM_append, ih]
    simp [hlast]

/-- All walks through a flow agree. A traversal finds, collects and numbers what the outline does,
and the outline has the places in the order of their addresses. A step is found just when its id is
among the collected ids, and what is found is the first place with that id: its list, its index, and
the scopes around it, which lead there from the main path if neither steps nor the scopes of a step
share an id. The table of positions has each id once, with the position of its first occurrence. The
ids of a step are its own and then those of its scopes. The repeated id that is reported is the one
whose repetition comes first, and there is none just when all ids differ. -/
theorem walks_agree (f : Flow) :
    (∀ id, Step.sought? id f.steps = f.find? id) ∧ Step.collected f.steps = f.ids ∧
      f.numbers = f.positions ∧
      (∃ addresses, Charts f.at? addresses f.places) ∧ f.places.map Place.id = f.ids ∧
      (∀ id, (f.find? id).isSome = true ↔ id ∈ f.ids) ∧
      (∀ id p, f.find? id = some p ↔ f.IsFirst id p) ∧
      (f.ids.Nodup → f.ScopesDiffer → ∀ id p, f.find? id = some p →
        f.follow? p.scopes = some p.siblings) ∧
      (∀ id, f.positions.lookup id = f.ids.idxOf? id) ∧ (f.positions.map Prod.fst).Nodup ∧
      (∀ id, f.find? id = (f.positions.lookup id).bind fun k => f.places[k]?) ∧
      (∀ s : Step, s.ids = s.id :: s.inner.flatMap fun i => Step.collected i.2) ∧
      (f.duplicateId? = none ↔ f.ids.Nodup) ∧
      ∀ id, f.duplicateId? = some id ↔
        ∃ pre post, f.ids = pre ++ id :: post ∧ pre.Nodup ∧ id ∈ pre := by
  refine ⟨sought?_eq, Step.collected_eq f.steps, numbers_eq, f.exists_charts, f.map_id_places,
    fun id => isSome_find?_iff, fun id p => find?_eq_some_iff_isFirst, ?_, f.lookup_positions,
    f.nodup_positions, f.find?_eq_positions, fun s => ?_, duplicateId?_eq_none_iff,
    fun id => duplicateId?_eq_some_iff⟩
  · intro unique differ id p hp
    exact (has_of_find? hp).1.follow? unique differ
  · simp only [Step.collected_eq]
    exact s.ids_eq

theorem walks_agree_layered :
    Sample.layered.ids.Nodup ∧ Sample.layered.ScopesDiffer ∧
      ∃ p, Sample.layered.find? "d" = some p ∧ p.index = 1 ∧
        p.scopes = [⟨.path, "fork", "right"⟩, ⟨.outcome, "ask", "yes"⟩] ∧
        Sample.layered.follow? p.scopes = some p.siblings := by
  have unique : Sample.layered.ids.Nodup := by decide
  have differ : Sample.layered.ScopesDiffer := by decide
  obtain ⟨-, -, -, -, -, -, -, hfollow, -⟩ := walks_agree Sample.layered
  exact ⟨unique, differ, _, rfl, rfl, rfl, hfollow unique differ "d" _ rfl⟩

end Flow

end Workflow
