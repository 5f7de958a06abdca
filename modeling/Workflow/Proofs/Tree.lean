import Mathlib.Data.List.Nodup
import Workflow.Flow.Outline

namespace Workflow

/-- The scopes that a step owns, each with its steps. -/
def Step.inner (s : Step) : List (Scope × List Step) :=
  match s.body with
  | .branch _ _ paths => paths.map fun p => (⟨.path, s.id, p.id⟩, p.steps)
  | .decision outcomes => outcomes.map fun o => (⟨.outcome, s.id, o.id⟩, o.steps)
  | _ => []

/-- The first steps of the scopes that a step owns; a scope without steps has none. -/
def Step.heads (s : Step) : List String :=
  s.inner.filterMap fun i => i.2.head?.map Step.id

/-- The places of a flow, from the main path inwards. -/
inductive Flow.Has (f : Flow) : Place → Prop where
  | main {k : Nat} {s : Step} (hs : f.steps[k]? = some s) : Has f ⟨s, f.steps, k, []⟩
  | inner {o : Place} {scope : Scope} {steps : List Step} {k : Nat} {s : Step} (ho : Has f o)
      (hi : (scope, steps) ∈ o.step.inner) (hs : steps[k]? = some s) :
      Has f ⟨s, steps, k, o.scopes ++ [scope]⟩

namespace Step

theorem owner_of_inner {s : Step} {scope : Scope} {steps : List Step}
    (hi : (scope, steps) ∈ s.inner) : scope.owner = s.id := by
  unfold inner at hi
  split at hi
  · obtain ⟨p, _, he⟩ := List.mem_map.mp hi
    cases he
    rfl
  · obtain ⟨o, _, he⟩ := List.mem_map.mp hi
    cases he
    rfl
  · cases hi

theorem sizeOf_lt_of_inner {s t : Step} {i : Scope × List Step} (hi : i ∈ s.inner)
    (ht : t ∈ i.2) :
    sizeOf t < sizeOf s := by
  obtain ⟨id, milestone, title, description, due, config, body⟩ := s
  unfold inner at hi
  split at hi
  · rename_i kind join paths hb
    obtain ⟨p, hp, rfl⟩ := List.mem_map.mp hi
    have hsteps := List.sizeOf_lt_of_mem ht
    have hpath := List.sizeOf_lt_of_mem hp
    obtain ⟨pid, label, guard, steps⟩ := p
    simp only at hb
    subst hb
    simp only [Path.mk.sizeOf_spec, Step.mk.sizeOf_spec, Body.branch.sizeOf_spec] at *
    omega
  · rename_i outcomes hb
    obtain ⟨o, ho, rfl⟩ := List.mem_map.mp hi
    have hsteps := List.sizeOf_lt_of_mem ht
    have houtcome := List.sizeOf_lt_of_mem ho
    obtain ⟨oid, label, steps⟩ := o
    simp only at hb
    subst hb
    simp only [Outcome.mk.sizeOf_spec, Step.mk.sizeOf_spec, Body.decision.sizeOf_spec] at *
    omega
  · cases hi

/-- Induction from the steps of the scopes that a step owns to the step. -/
theorem induction_inner {P : Step → Prop}
    (h : ∀ s : Step, (∀ i ∈ s.inner, ∀ t ∈ i.2, P t) → P s) (s : Step) : P s :=
  h s fun _ hi t ht =>
    have := sizeOf_lt_of_inner hi ht
    induction_inner h t
termination_by sizeOf s

end Step

theorem Path.walkAll_eq (scopes : List Scope) (owner : String) (paths : List (Path Step)) :
    Path.walkAll scopes owner paths =
      paths.flatMap fun p =>
        Step.walkAll (scopes ++ [⟨.path, owner, p.id⟩]) p.steps 0 p.steps := by
  induction paths with
  | nil => simp [Path.walkAll]
  | cons p rest ih => simp [Path.walkAll, ih]

theorem Outcome.walkAll_eq (scopes : List Scope) (owner : String) (outcomes : List (Outcome Step)) :
    Outcome.walkAll scopes owner outcomes =
      outcomes.flatMap fun o =>
        Step.walkAll (scopes ++ [⟨.outcome, owner, o.id⟩]) o.steps 0 o.steps := by
  induction outcomes with
  | nil => simp [Outcome.walkAll]
  | cons o rest ih => simp [Outcome.walkAll, ih]

theorem Path.idsOf_eq (paths : List (Path Step)) :
    Path.idsOf paths = paths.flatMap fun p => Step.idsOf p.steps := by
  induction paths with
  | nil => simp [Path.idsOf]
  | cons p rest ih => simp [Path.idsOf, ih]

theorem Outcome.idsOf_eq (outcomes : List (Outcome Step)) :
    Outcome.idsOf outcomes = outcomes.flatMap fun o => Step.idsOf o.steps := by
  induction outcomes with
  | nil => simp [Outcome.idsOf]
  | cons o rest ih => simp [Outcome.idsOf, ih]

namespace Step

/-- A walk is the step's own place and then the walks through the scopes it owns. -/
theorem walk_eq (scopes : List Scope) (siblings : List Step) (index : Nat) (s : Step) :
    s.walk scopes siblings index =
      ⟨s, siblings, index, scopes⟩
        :: s.inner.flatMap fun i => Step.walkAll (scopes ++ [i.1]) i.2 0 i.2 := by
  obtain ⟨id, milestone, title, description, due, config, body⟩ := s
  cases body <;>
    simp [Step.walk, Body.walk, inner, Path.walkAll_eq, Outcome.walkAll_eq, List.flatMap_map]

theorem ids_eq (s : Step) : s.ids = s.id :: s.inner.flatMap fun i => Step.idsOf i.2 := by
  obtain ⟨id, milestone, title, description, due, config, body⟩ := s
  cases body <;>
    simp [Step.ids, Body.ids, inner, Path.idsOf_eq, Outcome.idsOf_eq, List.flatMap_map]

theorem id_mem_ids (s : Step) : s.id ∈ s.ids := by
  rw [ids_eq]
  exact List.mem_cons_self

theorem idsOf_eq (steps : List Step) : Step.idsOf steps = steps.flatMap Step.ids := by
  induction steps with
  | nil => rfl
  | cons s rest ih => simp [Step.idsOf, ih]

theorem map_id_sublist (steps : List Step) : (steps.map Step.id).Sublist (idsOf steps) := by
  induction steps with
  | nil => exact .slnil
  | cons s rest ih => exact (List.singleton_sublist.mpr s.id_mem_ids).append ih

theorem mem_heads {s : Step} {id : String} :
    id ∈ s.heads ↔ ∃ scope h rest, (scope, h :: rest) ∈ s.inner ∧ h.id = id := by
  unfold heads
  rw [List.mem_filterMap]
  constructor
  · rintro ⟨⟨scope, steps⟩, hi, hid⟩
    obtain ⟨h, hh, rfl⟩ := Option.map_eq_some_iff.mp hid
    obtain ⟨rest, rfl⟩ := List.head?_eq_some_iff.mp hh
    exact ⟨scope, h, rest, hi, rfl⟩
  · rintro ⟨scope, h, rest, hi, rfl⟩
    exact ⟨(scope, h :: rest), hi, rfl⟩

/-- The first steps of the scopes in a step stand in its outline. -/
theorem heads_sublist (s : Step) : s.heads.Sublist s.ids := by
  have hall : ∀ is : List (Scope × List Step),
      (is.filterMap fun i => i.2.head?.map Step.id).Sublist
        (is.flatMap fun i => Step.idsOf i.2) := by
    intro is
    induction is with
    | nil => exact List.Sublist.refl _
    | cons i rest ih =>
      obtain ⟨scope, steps⟩ := i
      cases steps with
      | nil => exact ih
      | cons h steps =>
        simp only [List.filterMap_cons, List.head?_cons, Option.map_some, List.flatMap_cons,
          Step.idsOf, Step.ids_eq h, List.cons_append]
        exact (ih.trans (List.sublist_append_right _ _)).cons_cons _
  rw [ids_eq]
  exact (hall s.inner).cons _

theorem heads_branch {s : Step} {kind : BranchKind} {join : Quorum} {paths : List (Path Step)}
    (hb : s.body = .branch kind join paths) :
    s.heads = paths.filterMap fun p => p.steps.head?.map Step.id := by
  rw [heads, inner, hb, List.filterMap_map]
  rfl

/-- What is over as soon as it starts owns no scopes. -/
theorem heads_of_isPassThrough {s : Step} (h : s.body.isPassThrough = true) : s.heads = [] := by
  unfold heads inner
  cases hb : s.body <;> simp [hb, Body.isPassThrough] at h ⊢

theorem mem_walkAll_iff {p : Place} {scopes : List Scope} {siblings : List Step} {index : Nat}
    {rest : List Step} :
    p ∈ Step.walkAll scopes siblings index rest ↔
      ∃ (k : Nat) (s : Step), rest[k]? = some s ∧ p ∈ s.walk scopes siblings (index + k) := by
  induction rest generalizing index with
  | nil => simp [Step.walkAll]
  | cons s rest ih =>
    rw [Step.walkAll, List.mem_append, ih]
    constructor
    · rintro (h | ⟨k, t, ht, h⟩)
      · exact ⟨0, s, rfl, h⟩
      · exact ⟨k + 1, t, by simpa using ht, by rwa [Nat.add_right_comm] at h⟩
    · rintro ⟨_ | k, t, ht, h⟩
      · simp only [List.getElem?_cons_zero, Option.some.injEq] at ht
        subst ht
        exact .inl h
      · exact .inr ⟨k, t, by simpa using ht, by rwa [Nat.add_right_comm]⟩

theorem mem_walk_iff {p : Place} {scopes : List Scope} {siblings : List Step} {index : Nat}
    {s : Step} :
    p ∈ s.walk scopes siblings index ↔
      p = ⟨s, siblings, index, scopes⟩ ∨
        ∃ (scope : Scope) (steps : List Step) (k : Nat) (t : Step),
          (scope, steps) ∈ s.inner ∧ steps[k]? = some t ∧
            p ∈ t.walk (scopes ++ [scope]) steps k := by
  rw [walk_eq, List.mem_cons, List.mem_flatMap]
  constructor
  · rintro (rfl | ⟨⟨scope, steps⟩, hi, h⟩)
    · exact .inl rfl
    · obtain ⟨k, t, ht, h⟩ := mem_walkAll_iff.mp h
      rw [Nat.zero_add] at h
      exact .inr ⟨scope, steps, k, t, hi, ht, h⟩
  · rintro (rfl | ⟨scope, steps, k, t, hi, ht, h⟩)
    · exact .inl rfl
    · exact .inr
        ⟨(scope, steps), hi, mem_walkAll_iff.mpr ⟨k, t, ht, by rwa [Nat.zero_add]⟩⟩

/-- Whatever a walk visits from a place of the flow is a place of the flow. -/
theorem has_of_mem_walk {f : Flow} (s : Step) :
    ∀ {scopes : List Scope} {siblings : List Step} {index : Nat} {p : Place},
      f.Has ⟨s, siblings, index, scopes⟩ → p ∈ s.walk scopes siblings index →
        f.Has p := by
  induction s using Step.induction_inner with
  | h s ih =>
    intro scopes siblings index p hs hp
    rcases mem_walk_iff.mp hp with rfl | ⟨scope, steps, k, t, hi, ht, h⟩
    · exact hs
    · exact ih _ hi t (List.mem_of_getElem? ht) (.inner hs hi ht) h

/-- A walk that visits a place also visits the places nested in it. -/
theorem inner_mem_walk (s : Step) :
    ∀ {scopes : List Scope} {siblings : List Step} {index : Nat} {o : Place} {scope : Scope}
      {steps : List Step} {k : Nat} {t : Step},
      o ∈ s.walk scopes siblings index → (scope, steps) ∈ o.step.inner →
        steps[k]? = some t →
        (⟨t, steps, k, o.scopes ++ [scope]⟩ : Place) ∈ s.walk scopes siblings index := by
  induction s using Step.induction_inner with
  | h s ih =>
    intro scopes siblings index o scope steps k t ho hi ht
    rcases mem_walk_iff.mp ho with rfl | ⟨scope', steps', j, u, hj, hu, h⟩
    · exact mem_walk_iff.mpr (.inr ⟨scope, steps, k, t, hi, ht, mem_walk_iff.mpr (.inl rfl)⟩)
    · have hin := ih _ hj u (List.mem_of_getElem? hu) h hi ht
      exact mem_walk_iff.mpr (.inr ⟨scope', steps', j, u, hj, hu, hin⟩)

theorem map_id_walkAll {scopes : List Scope} {siblings : List Step} {index : Nat}
    {rest : List Step}
    (h : ∀ s ∈ rest, ∀ scopes siblings index, (s.walk scopes siblings index).map Place.id =
      s.ids) :
    (Step.walkAll scopes siblings index rest).map Place.id = Step.idsOf rest := by
  induction rest generalizing index with
  | nil => simp [Step.walkAll, Step.idsOf]
  | cons s rest ih =>
    rw [Step.walkAll, Step.idsOf, List.map_append, h s List.mem_cons_self,
      ih fun t ht => h t (List.mem_cons_of_mem s ht)]

theorem map_id_walk (s : Step) :
    ∀ (scopes : List Scope) (siblings : List Step) (index : Nat),
      (s.walk scopes siblings index).map Place.id = s.ids := by
  induction s using Step.induction_inner with
  | h s ih =>
    intro scopes siblings index
    rw [walk_eq, ids_eq, List.map_cons, List.map_flatMap]
    congr 1
    apply List.flatMap_congr
    intro i hi
    exact map_id_walkAll (ih i hi)

end Step

namespace Flow

/-- The places of the outline are those of the tree. -/
theorem mem_places_iff {f : Flow} {p : Place} : p ∈ f.places ↔ f.Has p := by
  unfold places
  constructor
  · intro hp
    obtain ⟨k, s, hs, h⟩ := Step.mem_walkAll_iff.mp hp
    rw [Nat.zero_add] at h
    exact s.has_of_mem_walk (.main hs) h
  · intro hp
    induction hp with
    | main hs =>
      exact Step.mem_walkAll_iff.mpr ⟨_, _, hs, by
        rw [Nat.zero_add]
        exact Step.mem_walk_iff.mpr (.inl rfl)⟩
    | inner ho hi hs ih =>
      obtain ⟨k, s, hk, h⟩ := Step.mem_walkAll_iff.mp ih
      exact Step.mem_walkAll_iff.mpr ⟨k, s, hk, s.inner_mem_walk h hi hs⟩

/-- The outline lists the places in the order of the ids. -/
theorem map_id_places (f : Flow) : f.places.map Place.id = f.ids :=
  Step.map_id_walkAll fun s _ => s.map_id_walk

theorem Has.ids_sublist {f : Flow} {p : Place} (hp : f.Has p) : p.step.ids.Sublist f.ids := by
  have hmem : ∀ {k : Nat} {s : Step} {steps : List Step}, steps[k]? = some s →
      s.ids.Sublist (Step.idsOf steps) := by
    intro k s steps hs
    rw [Step.idsOf_eq, List.flatMap_def]
    exact List.sublist_flatten_of_mem (List.mem_map_of_mem (List.mem_of_getElem? hs))
  induction hp with
  | main hs => exact hmem hs
  | @inner o scope steps k s _ hi hs ih =>
    refine List.Sublist.trans ?_ ih
    rw [Step.ids_eq o.step, List.flatMap_def]
    refine ((hmem hs).trans ?_).cons _
    exact List.sublist_flatten_of_mem (List.mem_map_of_mem (f := fun i => Step.idsOf i.2) hi)

theorem Has.step_at {f : Flow} {p : Place} (hp : f.Has p) : p.siblings[p.index]? = some p.step := by
  cases hp with
  | main hs => exact hs
  | inner _ _ hs => exact hs

/-- The step behind a place stands in the same scopes. -/
theorem Has.next {f : Flow} {p : Place} {s : Step} (hp : f.Has p) (hs : p.next? = some s) :
    f.Has ⟨s, p.siblings, p.index + 1, p.scopes⟩ := by
  cases hp with
  | main _ => exact .main hs
  | inner ho hi _ => exact .inner ho hi hs

/-- The owner of the scope around a place stands in the scopes around that scope. -/
theorem Has.owner {f : Flow} {p : Place} {scope : Scope} (hp : f.Has p)
    (hs : p.scope? = some scope) :
    ∃ o, f.Has o ∧ (scope, p.siblings) ∈ o.step.inner ∧ p.scopes = o.scopes ++ [scope] := by
  cases hp with
  | main _ => simp [Place.scope?] at hs
  | inner ho hi _ =>
    simp only [Place.scope?, List.getLast?_append, List.getLast?_singleton, Option.some_or,
      Option.some.injEq] at hs
    subst hs
    exact ⟨_, ho, hi, rfl⟩

/-- The owners of the scopes around a place stand in fewer scopes than the place. -/
theorem Has.owner_shallow {f : Flow} {p : Place} (hp : f.Has p) :
    ∀ scope ∈ p.scopes, ∃ o, f.Has o ∧ o.id = scope.owner ∧
      o.scopes.length < p.scopes.length := by
  induction hp with
  | main _ => simp
  | @inner o scope steps k s ho hi _ ih =>
    intro t ht
    rcases List.mem_append.mp ht with ht | ht
    · obtain ⟨q, hq, hid, hlt⟩ := ih t ht
      exact ⟨q, hq, hid, by simp only [List.length_append, List.length_singleton]; omega⟩
    · rw [List.mem_singleton] at ht
      subst ht
      exact ⟨o, ho, (Step.owner_of_inner hi).symm, by simp⟩

section Unique

variable {f : Flow} (unique : f.ids.Nodup)
include unique

theorem Has.eq_of_id {p q : Place} (hp : f.Has p) (hq : f.Has q) (h : p.id = q.id) : p = q := by
  rw [← map_id_places] at unique
  exact List.inj_on_of_nodup_map unique (mem_places_iff.mpr hp) (mem_places_iff.mpr hq) h

/-- If ids differ, a search comes to the one place with the id. -/
theorem find?_eq_some_iff {id : String} {p : Place} :
    f.find? id = some p ↔ f.Has p ∧ p.id = id := by
  unfold find?
  constructor
  · intro h
    exact ⟨mem_places_iff.mp (List.mem_of_find?_eq_some h), by
      simpa using List.find?_some h⟩
  · rintro ⟨hp, rfl⟩
    cases hf : f.places.find? fun q => q.id == p.id with
    | none => simpa using List.find?_eq_none.mp hf p (mem_places_iff.mpr hp)
    | some q =>
      have hq := mem_places_iff.mp (List.mem_of_find?_eq_some hf)
      have hid : q.id = p.id := by simpa using List.find?_some hf
      rw [hq.eq_of_id unique hp hid]

theorem Has.find? {p : Place} (hp : f.Has p) : f.find? p.id = some p :=
  (find?_eq_some_iff unique).mpr ⟨hp, rfl⟩

theorem Has.heads_nodup {o : Place} (ho : f.Has o) : o.step.heads.Nodup :=
  (unique.sublist ho.ids_sublist).sublist o.step.heads_sublist

/-- A step does not stand in a scope of its own. -/
theorem Has.not_own {p : Place} (hp : f.Has p) {scope : Scope} (hs : scope ∈ p.scopes) :
    scope.owner ≠ p.id := by
  intro he
  obtain ⟨o, ho, hid, hlt⟩ := hp.owner_shallow scope hs
  rw [ho.eq_of_id unique hp (hid.trans he)] at hlt
  exact Nat.lt_irrefl _ hlt

end Unique

end Flow

end Workflow
