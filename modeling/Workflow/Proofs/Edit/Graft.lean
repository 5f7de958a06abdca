import Workflow.Flow.Modify
import Workflow.Flow.Siblings
import Workflow.Proofs.Tree

namespace Workflow

/-- The ids of a list of steps are one piece of some ids, and an edit of the list replaces it. -/
def Grafts (ids : List String) (siblings : List Step)
    (edited : (List Step → List Step) → List String) : Prop :=
  ∃ pre post, ids = pre ++ Step.idsOf siblings ++ post ∧
    ∀ edit, edited edit = pre ++ Step.idsOf (edit siblings) ++ post

namespace Grafts

variable {ids : List String} {siblings : List Step}
  {edited : (List Step → List Step) → List String}

theorem self (siblings : List Step) :
    Grafts (Step.idsOf siblings) siblings fun edit => Step.idsOf (edit siblings) :=
  ⟨[], [], by simp, by simp⟩

theorem behind (h : Grafts ids siblings edited) (more : List String) :
    Grafts (more ++ ids) siblings fun edit => more ++ edited edit := by
  obtain ⟨pre, post, hids, hedited⟩ := h
  exact ⟨more ++ pre, post, by simp [hids], fun edit => by simp [hedited]⟩

theorem before (h : Grafts ids siblings edited) (more : List String) :
    Grafts (ids ++ more) siblings fun edit => edited edit ++ more := by
  obtain ⟨pre, post, hids, hedited⟩ := h
  exact ⟨pre, post ++ more, by simp [hids], fun edit => by simp [hedited]⟩

end Grafts

theorem Step.find?_walk_eq_none {id : String} {scopes : List Scope} {siblings : List Step}
    {index : Nat} {s : Step} :
    (s.walk scopes siblings index).find? (fun p => p.id == id) = none ↔ id ∉ s.ids := by
  rw [← s.map_id_walk scopes siblings index]
  simp [List.find?_eq_none]

theorem Step.find?_walkAll_eq_none {id : String} {scopes : List Scope} {siblings : List Step}
    {index : Nat} {steps : List Step} :
    (Step.walkAll scopes siblings index steps).find? (fun p => p.id == id) = none ↔
      id ∉ Step.idsOf steps := by
  rw [← @Step.map_id_walkAll scopes siblings index steps fun s _ => s.map_id_walk]
  simp [List.find?_eq_none]

/-- Where the first step with an id is found from a list on: in the list itself, or in a list below
it that can be edited. -/
def Step.Found (id : String) (siblings steps : List Step) (p : Place) : Prop :=
  Step.standsIn id steps = true ∧
      p.siblings = siblings ∧ Siblings.find? id steps = some p.step ∨
    Step.standsIn id steps = false ∧
      Grafts (Step.idsOf steps) p.siblings
          (fun edit => Step.idsOf (Step.modifyBelow id edit steps)) ∧
      Siblings.find? id p.siblings = some p.step

/-- The list that a step is found in can be edited from the list around it. -/
theorem Step.Found.grafts {id : String} {steps : List Step} {p : Place}
    (h : Step.Found id steps steps p) :
    Grafts (Step.idsOf steps) p.siblings
        (fun edit => Step.idsOf (Step.modifyAround id edit steps)) ∧
      Siblings.find? id p.siblings = some p.step := by
  unfold Step.modifyAround
  rcases h with ⟨hstands, hsiblings, hfind⟩ | ⟨hstands, hgrafts, hfind⟩
  · rw [hstands, hsiblings]
    exact ⟨.self steps, hfind⟩
  · rw [hstands]
    exact ⟨hgrafts, hfind⟩

theorem Step.idsOf_modifyBelow (id : String) (edit : List Step → List Step) (s : Step)
    (rest : List Step) :
    Step.idsOf (Step.modifyBelow id edit (s :: rest)) =
      if id ∈ s.ids then Step.ids { s with body := s.body.modify id edit } ++ Step.idsOf rest
      else s.ids ++ Step.idsOf (Step.modifyBelow id edit rest) := by
  obtain ⟨sid, milestone, title, description, due, config, body⟩ := s
  by_cases h : id ∈ sid :: body.ids
  · rw [Step.modifyBelow, if_pos h, if_pos (by simpa only [Step.ids] using h), Step.idsOf]
  · rw [Step.modifyBelow, if_neg h, if_neg (by simpa only [Step.ids] using h), Step.idsOf]

/-- The first step with an id is found in one scope, or else in those behind it. -/
theorem Step.grafts_or {id : String} {scopes : List Scope} {steps : List Step} {others : List Place}
    {ids : List String} {edited : (List Step → List Step) → List String} {p : Place}
    (h : (Step.walkAll scopes steps 0 steps ++ others).find? (fun q => q.id == id) = some p)
    (hsteps : (Step.walkAll scopes steps 0 steps).find? (fun q => q.id == id) = some p →
      Step.Found id steps steps p)
    (hothers : others.find? (fun q => q.id == id) = some p →
      Grafts ids p.siblings edited ∧ Siblings.find? id p.siblings = some p.step) :
    Grafts (Step.idsOf steps ++ ids) p.siblings (fun edit =>
        if id ∈ Step.idsOf steps then Step.idsOf (Step.modifyAround id edit steps) ++ ids
        else Step.idsOf steps ++ edited edit) ∧
      Siblings.find? id p.siblings = some p.step := by
  rw [List.find?_append] at h
  rcases Option.or_eq_some_iff.mp h with h | ⟨hnone, h⟩
  · have hmem : id ∈ Step.idsOf steps := by
      by_contra hno
      rw [Step.find?_walkAll_eq_none.mpr hno] at h
      cases h
    obtain ⟨hgrafts, hfind⟩ := (hsteps h).grafts
    simp only [if_pos hmem]
    exact ⟨hgrafts.before ids, hfind⟩
  · obtain ⟨hgrafts, hfind⟩ := hothers h
    simp only [if_neg (Step.find?_walkAll_eq_none.mp hnone)]
    exact ⟨hgrafts.behind (Step.idsOf steps), hfind⟩

mutual

theorem Step.grafts (scopes : List Scope) (siblings : List Step) (index : Nat) (s : Step)
    {id : String} {p : Place} (hid : s.id ≠ id)
    (h : (s.walk scopes siblings index).find? (fun q => q.id == id) = some p) :
    Grafts s.ids p.siblings (fun edit => Step.ids { s with body := s.body.modify id edit }) ∧
      Siblings.find? id p.siblings = some p.step := by
  match s with
  | ⟨sid, milestone, title, description, due, config, body⟩ =>
    rw [Step.walk, List.find?_cons_of_neg (by simpa [Place.id] using hid)] at h
    obtain ⟨hgrafts, hfind⟩ := Body.grafts scopes sid body h
    exact ⟨by simpa only [Step.ids, List.singleton_append] using hgrafts.behind [sid], hfind⟩

theorem Body.grafts (scopes : List Scope) (owner : String) (b : Body Step) {id : String} {p : Place}
    (h : (b.walk scopes owner).find? (fun q => q.id == id) = some p) :
    Grafts b.ids p.siblings (fun edit => (b.modify id edit).ids) ∧
      Siblings.find? id p.siblings = some p.step := by
  match b with
  | .branch _ _ paths =>
    rw [Body.walk] at h
    simpa only [Body.ids, Body.modify] using Path.grafts scopes owner paths h
  | .decision outcomes =>
    rw [Body.walk] at h
    simpa only [Body.ids, Body.modify] using Outcome.grafts scopes owner outcomes h
  | .action _ _ _ => simp [Body.walk] at h
  | .subFlow _ _ => simp [Body.walk] at h
  | .goto _ => simp [Body.walk] at h
  | .gotoDestination _ => simp [Body.walk] at h
  | .terminate _ => simp [Body.walk] at h

theorem Path.grafts (scopes : List Scope) (owner : String) (paths : List (Path Step)) {id : String}
    {p : Place} (h : (Path.walkAll scopes owner paths).find? (fun q => q.id == id) = some p) :
    Grafts (Path.idsOf paths) p.siblings (fun edit => Path.idsOf (Path.modifyIn id edit paths)) ∧
      Siblings.find? id p.siblings = some p.step := by
  match paths with
  | [] => simp [Path.walkAll] at h
  | ⟨pid, label, guard, steps⟩ :: rest =>
    rw [Path.walkAll] at h
    have hor := Step.grafts_or h (Step.found _ steps 0 steps) (Path.grafts scopes owner rest)
    simpa only [Path.idsOf, Path.modifyIn, Step.modifyAround, apply_ite Path.idsOf] using hor

theorem Outcome.grafts (scopes : List Scope) (owner : String) (outcomes : List (Outcome Step))
    {id : String} {p : Place}
    (h : (Outcome.walkAll scopes owner outcomes).find? (fun q => q.id == id) = some p) :
    Grafts (Outcome.idsOf outcomes) p.siblings
        (fun edit => Outcome.idsOf (Outcome.modifyIn id edit outcomes)) ∧
      Siblings.find? id p.siblings = some p.step := by
  match outcomes with
  | [] => simp [Outcome.walkAll] at h
  | ⟨oid, label, steps⟩ :: rest =>
    rw [Outcome.walkAll] at h
    have hor := Step.grafts_or h (Step.found _ steps 0 steps) (Outcome.grafts scopes owner rest)
    simpa only [Outcome.idsOf, Outcome.modifyIn, Step.modifyAround, apply_ite Outcome.idsOf]
      using hor

/-- The place that a search comes to tells where an edit of its list goes. -/
theorem Step.found (scopes : List Scope) (siblings : List Step) (index : Nat) (steps : List Step)
    {id : String} {p : Place}
    (h : (Step.walkAll scopes siblings index steps).find? (fun q => q.id == id) = some p) :
    Step.Found id siblings steps p := by
  match steps with
  | [] => simp [Step.walkAll] at h
  | s :: rest =>
    rw [Step.walkAll, List.find?_append] at h
    by_cases hid : s.id = id
    · have hself : (s.walk scopes siblings index).find? (fun q => q.id == id) =
          some ⟨s, siblings, index, scopes⟩ := by
        rw [Step.walk_eq, List.find?_cons_of_pos (by simpa [Place.id] using hid)]
      rw [hself, Option.some_or, Option.some.injEq] at h
      subst h
      have hmem : id ∈ s.ids := by simp [Step.ids_eq, hid]
      exact .inl ⟨by simp [Step.standsIn, hmem, hid], rfl, by simp [Siblings.find?, hid]⟩
    · rcases Option.or_eq_some_iff.mp h with h | ⟨hnone, h⟩
      · -- The step is nested in the first one.
        have hmem : id ∈ s.ids := by
          by_contra hno
          rw [Step.find?_walk_eq_none.mpr hno] at h
          cases h
        obtain ⟨hgrafts, hfind⟩ := Step.grafts scopes siblings index s hid h
        refine .inr ⟨by simp [Step.standsIn, hmem, hid], ?_, hfind⟩
        simp only [Step.idsOf_modifyBelow, if_pos hmem]
        exact hgrafts.before _
      · have hmem : id ∉ s.ids := Step.find?_walk_eq_none.mp hnone
        have hrest := Step.found scopes siblings (index + 1) rest h
        have hstands : Step.standsIn id (s :: rest) = Step.standsIn id rest := by
          simp [Step.standsIn, hmem]
        unfold Step.Found at hrest ⊢
        rw [hstands]
        refine hrest.imp ?_ ?_
        · rintro ⟨hs, hsiblings, hfind⟩
          exact ⟨hs, hsiblings, by simpa [Siblings.find?, hid] using hfind⟩
        · rintro ⟨hs, hgrafts, hfind⟩
          refine ⟨hs, ?_, hfind⟩
          simp only [Step.idsOf_modifyBelow, if_neg hmem]
          exact hgrafts.behind _

end

/-- The list that a step is found in can be edited from the whole flow. -/
theorem Flow.grafts_of_find? {f : Flow} {id : String} {p : Place} (h : f.find? id = some p) :
    Grafts f.ids p.siblings (fun edit => (f.modifyAround id edit).ids) ∧
      Siblings.find? id p.siblings = some p.step :=
  (Step.found [] f.steps 0 f.steps h).grafts

/-- One piece of a list is replaced, and nothing else changes. -/
def Splices (old new before after : List String) : Prop :=
  ∃ pre post, before = pre ++ old ++ post ∧ after = pre ++ new ++ post

namespace Splices

variable {old new before after whole whole' : List String}

/-- A piece of a piece is a piece. -/
theorem trans (h : Splices old new before after) (around : Splices before after whole whole') :
    Splices old new whole whole' := by
  obtain ⟨pre, post, rfl, rfl⟩ := h
  obtain ⟨pre', post', rfl, rfl⟩ := around
  exact ⟨pre' ++ pre, post ++ post', by simp, by simp⟩

theorem self (old new : List String) : Splices old new old new :=
  ⟨[], [], by simp, by simp⟩

theorem cons (h : Splices old new before after) (id : String) :
    Splices old new (id :: before) (id :: after) :=
  h.trans ⟨[id], [], by simp, by simp⟩

end Splices

/-- A step that is replaced takes its nested steps with it, and nothing else changes. -/
theorem Flow.ids_replaceStep {f : Flow} {id : String} {p : Place} (h : f.find? id = some p)
    (new : Step) : Splices p.step.ids new.ids f.ids (f.replaceStep id new).ids := by
  obtain ⟨⟨pre, post, hids, hedited⟩, hfind⟩ := Flow.grafts_of_find? h
  obtain ⟨before, after, hsiblings, hmodify⟩ := Sequence.modifyFirst_of_find? hfind fun _ => new
  refine ⟨pre ++ Step.idsOf before, Step.idsOf after ++ post, ?_, ?_⟩
  · rw [hids, hsiblings]
    simp [Step.idsOf_eq]
  · refine (hedited _).trans ?_
    rw [hmodify]
    simp [Step.idsOf_eq]

end Workflow
