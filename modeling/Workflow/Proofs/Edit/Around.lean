import Workflow.Proofs.Edit.Graft
import Workflow.Proofs.Returns

namespace Workflow

/-- A step after an edit of a list somewhere below it. -/
def Step.modifyInside (id : String) (edit : List Step → List Step) (s : Step) : Step :=
  { s with body := s.body.modify id edit }

/-- The place of a step after an edit of a list somewhere below it. -/
def Place.modifyInside (id : String) (edit : List Step → List Step) (o : Place) : Place :=
  { o with
    step := o.step.modifyInside id edit
    siblings := o.siblings.set o.index (o.step.modifyInside id edit) }

section Lists

variable {id : String} {edit : List Step → List Step} {steps : List Step} {s : Step} {k : Nat}

namespace Place

@[simp] theorem next?_modifyInside (o : Place) : (o.modifyInside id edit).next? = o.next? := by
  simp [modifyInside, next?]

@[simp] theorem id_modifyInside (o : Place) : (o.modifyInside id edit).id = o.id := rfl

end Place

namespace Step

theorem mem_idsOf (hs : steps[k]? = some s) (hid : id ∈ s.ids) : id ∈ idsOf steps := by
  rw [idsOf_eq]
  exact List.mem_flatMap.mpr ⟨s, List.mem_of_getElem? hs, hid⟩

/-- Of all steps of a list, one at most holds a step with an id. -/
theorem find?_ids (hs : steps[k]? = some s) (hid : id ∈ s.ids) (unique : (idsOf steps).Nodup) :
    steps.find? (fun t => decide (id ∈ t.ids)) = some s := by
  induction steps generalizing k with
  | nil => simp at hs
  | cons t rest ih =>
    rw [idsOf, List.nodup_append] at unique
    cases k with
    | zero =>
      obtain rfl : t = s := by simpa using hs
      exact List.find?_cons_of_pos (by simpa using hid)
    | succ k =>
      have hrest : rest[k]? = some s := by simpa using hs
      have hmem := mem_idsOf hrest hid
      rw [List.find?_cons_of_neg (by simpa using fun ht => unique.2.2 _ ht _ hmem rfl)]
      exact ih hrest unique.2.1

theorem standsIn_eq (hs : steps[k]? = some s) (hid : id ∈ s.ids) (unique : (idsOf steps).Nodup) :
    standsIn id steps = (s.id == id) := by
  rw [standsIn, find?_ids hs hid unique]

/-- An edit below a list changes the step that holds the edited list, and no other. -/
theorem modifyBelow_eq (edit : List Step → List Step) (hs : steps[k]? = some s)
    (hid : id ∈ s.ids) (unique : (idsOf steps).Nodup) :
    modifyBelow id edit steps = steps.set k (s.modifyInside id edit) := by
  induction steps generalizing k with
  | nil => simp at hs
  | cons t rest ih =>
    have hcons : modifyBelow id edit (t :: rest) =
        if id ∈ t.ids then t.modifyInside id edit :: rest
        else t :: modifyBelow id edit rest := by
      obtain ⟨tid, milestone, title, description, due, config, body⟩ := t
      rw [modifyBelow, Step.ids]
      rfl
    rw [idsOf, List.nodup_append] at unique
    rw [hcons]
    cases k with
    | zero =>
      obtain rfl : t = s := by simpa using hs
      rw [if_pos hid, List.set_cons_zero]
    | succ k =>
      have hrest : rest[k]? = some s := by simpa using hs
      have hmem := mem_idsOf hrest hid
      -- the edit passes over the first step, since an id that is below another cannot be
      -- below it too
      rw [if_neg fun ht => unique.2.2 _ ht _ hmem rfl, ih hrest unique.2.1, List.set_cons_succ]

theorem modifyAround_here (edit : List Step → List Step) (hs : steps[k]? = some s)
    (hid : s.id = id) (unique : (idsOf steps).Nodup) :
    modifyAround id edit steps = edit steps := by
  rw [modifyAround, standsIn_eq hs (hid ▸ s.id_mem_ids) unique, if_pos (by simpa using hid)]

theorem modifyAround_inside (edit : List Step → List Step) (hs : steps[k]? = some s)
    (hid : id ∈ s.ids) (hne : s.id ≠ id) (unique : (idsOf steps).Nodup) :
    modifyAround id edit steps = steps.set k (s.modifyInside id edit) := by
  rw [modifyAround, standsIn_eq hs hid unique, if_neg (by simpa using hne),
    modifyBelow_eq edit hs hid unique]

end Step

theorem Path.mem_modifyIn (edit : List Step → List Step) {paths : List (Path Step)}
    {p : Path Step} (hp : p ∈ paths) (hid : id ∈ Step.idsOf p.steps)
    (unique : (Path.idsOf paths).Nodup) :
    { p with steps := Step.modifyAround id edit p.steps } ∈ Path.modifyIn id edit paths := by
  induction paths with
  | nil => cases hp
  | cons q rest ih =>
    obtain ⟨qid, label, guard, steps⟩ := q
    rw [Path.idsOf, List.nodup_append] at unique
    rw [Path.modifyIn]
    rcases List.mem_cons.mp hp with rfl | hp
    · rw [if_pos hid]
      exact List.mem_cons_self
    · have hmem : id ∈ Path.idsOf rest := by
        rw [Path.idsOf_eq]
        exact List.mem_flatMap.mpr ⟨p, hp, hid⟩
      rw [if_neg fun hq => unique.2.2 _ hq _ hmem rfl]
      exact List.mem_cons_of_mem _ (ih hp unique.2.1)

theorem Outcome.mem_modifyIn (edit : List Step → List Step) {outcomes : List (Outcome Step)}
    {o : Outcome Step} (ho : o ∈ outcomes) (hid : id ∈ Step.idsOf o.steps)
    (unique : (Outcome.idsOf outcomes).Nodup) :
    { o with steps := Step.modifyAround id edit o.steps } ∈
      Outcome.modifyIn id edit outcomes := by
  induction outcomes with
  | nil => cases ho
  | cons q rest ih =>
    obtain ⟨qid, label, steps⟩ := q
    rw [Outcome.idsOf, List.nodup_append] at unique
    rw [Outcome.modifyIn]
    rcases List.mem_cons.mp ho with rfl | ho
    · rw [if_pos hid]
      exact List.mem_cons_self
    · have hmem : id ∈ Outcome.idsOf rest := by
        rw [Outcome.idsOf_eq]
        exact List.mem_flatMap.mpr ⟨o, ho, hid⟩
      rw [if_neg fun hq => unique.2.2 _ hq _ hmem rfl]
      exact List.mem_cons_of_mem _ (ih ho unique.2.1)

/-- A scope that holds the edited list is the same scope with its list edited. -/
theorem Step.inner_modifyInside (edit : List Step → List Step) {scope : Scope}
    (hi : (scope, steps) ∈ s.inner) (hid : id ∈ idsOf steps) (unique : s.ids.Nodup) :
    (scope, modifyAround id edit steps) ∈ (s.modifyInside id edit).inner := by
  obtain ⟨sid, milestone, title, description, due, config, body⟩ := s
  rw [Step.ids, List.nodup_cons] at unique
  unfold inner at hi
  split at hi
  · rename_i kind join paths hb
    obtain rfl : body = .branch kind join paths := hb
    obtain ⟨p, hp, he⟩ := List.mem_map.mp hi
    cases he
    rw [Body.ids] at unique
    simp only [inner, modifyInside, Body.modify]
    exact List.mem_map.mpr ⟨_, Path.mem_modifyIn edit hp hid unique.2, rfl⟩
  · rename_i outcomes hb
    obtain rfl : body = .decision outcomes := hb
    obtain ⟨o, ho, he⟩ := List.mem_map.mp hi
    cases he
    rw [Body.ids] at unique
    simp only [inner, modifyInside, Body.modify]
    exact List.mem_map.mpr ⟨_, Outcome.mem_modifyIn edit ho hid unique.2, rfl⟩
  · cases hi

end Lists

namespace Flow

variable {f : Flow} {id : String}

section Unique

variable (unique : f.ids.Nodup)
include unique

theorem Has.siblings_nodup {p : Place} (hp : f.Has p) : (Step.idsOf p.siblings).Nodup := by
  cases hp with
  | main _ => exact unique
  | @inner o scope steps _ _ ho hi _ =>
    refine (unique.sublist ho.ids_sublist).sublist ?_
    rw [Step.ids_eq, List.flatMap_def]
    exact (List.sublist_flatten_of_mem
      (List.mem_map_of_mem (f := fun i : Scope × List Step => Step.idsOf i.2) hi)).cons _

/-- The owner of a scope holds all that the scope holds, and is none of it. -/
theorem Has.holds {o : Place} {scope : Scope} {steps : List Step} (ho : f.Has o)
    (hi : (scope, steps) ∈ o.step.inner) (hid : id ∈ Step.idsOf steps) :
    id ∈ o.step.ids ∧ o.id ≠ id := by
  have hnodup := unique.sublist ho.ids_sublist
  have hmem : id ∈ o.step.inner.flatMap fun i => Step.idsOf i.2 :=
    List.mem_flatMap.mpr ⟨_, hi, hid⟩
  rw [Step.ids_eq, List.nodup_cons] at hnodup
  rw [Step.ids_eq]
  refine ⟨List.mem_cons_of_mem _ hmem, ?_⟩
  rintro rfl
  exact hnodup.1 hmem

/-- A step around the edited list is still at its place. -/
theorem Has.modifyInside (edit : List Step → List Step) {o : Place} (ho : f.Has o)
    (hid : id ∈ o.step.ids) (hne : o.id ≠ id) :
    (f.modifyAround id edit).Has (o.modifyInside id edit) := by
  induction ho with
  | @main k s hs =>
    have hsteps : (f.modifyAround id edit).steps = f.steps.set k (s.modifyInside id edit) :=
      Step.modifyAround_inside edit hs hid hne unique
    have hmain := Has.main (f := f.modifyAround id edit) (k := k) (s := s.modifyInside id edit)
      (by rw [hsteps]; exact List.getElem?_set_self (List.getElem?_eq_some_iff.mp hs).1)
    rwa [hsteps] at hmain
  | @inner o scope steps k s ho hi hs ih =>
    have hmem := Step.mem_idsOf hs hid
    obtain ⟨hin, hne'⟩ := ho.holds unique hi hmem
    -- the owner is around the edited list as well, so that its own place is the induction
    -- hypothesis
    have hinner := Step.inner_modifyInside edit hi hmem (unique.sublist ho.ids_sublist)
    rw [Step.modifyAround_inside edit hs hid hne ((Has.inner ho hi hs).siblings_nodup unique)]
      at hinner
    exact .inner (o := o.modifyInside id edit) (ih hin hne') hinner
      (List.getElem?_set_self (List.getElem?_eq_some_iff.mp hs).1)

/-- The edited list stands where the list stood. -/
theorem Has.modifyAround (edit : List Step → List Step) {p : Place} (hp : f.Has p) {k : Nat}
    {s : Step} (hs : (edit p.siblings)[k]? = some s) :
    (f.modifyAround p.id edit).Has ⟨s, edit p.siblings, k, p.scopes⟩ := by
  have hlist := Step.modifyAround_here edit hp.step_at rfl (hp.siblings_nodup unique)
  cases hp with
  | @main j t _ =>
    have hsteps : (f.modifyAround t.id edit).steps = edit f.steps := hlist
    have hmain := Has.main (f := f.modifyAround t.id edit) (k := k) (s := s) (by rwa [hsteps])
    rwa [hsteps] at hmain
  | @inner o scope steps j t ho hi ht =>
    have hmem : t.id ∈ Step.idsOf steps := Step.mem_idsOf ht t.id_mem_ids
    obtain ⟨hin, hne⟩ := ho.holds unique hi hmem
    have hinner := Step.inner_modifyInside edit hi hmem (unique.sublist ho.ids_sublist)
    rw [show Step.modifyAround t.id edit steps = edit steps from hlist] at hinner
    exact .inner (o := o.modifyInside t.id edit) (ho.modifyInside unique edit hin hne) hinner hs

theorem Encloses.modifyInside (edit : List Step → List Step) {o p : Place} {scope : Scope}
    (h : f.Encloses o scope p) (hp : f.Has p) (hid : id ∈ p.step.ids) (hne : p.id ≠ id) :
    (id ∈ o.step.ids ∧ o.id ≠ id) ∧
      (f.modifyAround id edit).Encloses (o.modifyInside id edit) scope
        (p.modifyInside id edit) := by
  have hmem := Step.mem_idsOf hp.step_at hid
  have hin := h.has.holds unique h.mem hmem
  have hinner := Step.inner_modifyInside edit h.mem hmem (unique.sublist h.has.ids_sublist)
  rw [Step.modifyAround_inside edit hp.step_at hid hne (hp.siblings_nodup unique)] at hinner
  exact ⟨hin, h.has.modifyInside unique edit hin.1 hin.2, hinner, h.scopes⟩

/-- Behind a step around the edited list, a strand goes where it went before. -/
theorem Returns.modifyInside (edit : List Step → List Step) {forks : List Fork}
    {fork : Option String} {p : Place} {went : Onward × List Fork}
    (h : f.Returns forks fork p went) (hp : f.Has p) (hid : id ∈ p.step.ids) (hne : p.id ≠ id) :
    (f.modifyAround id edit).Returns forks fork (p.modifyInside id edit) went := by
  induction h with
  | next hn => exact .next (by rwa [Place.next?_modifyInside])
  | exhausts hn hmain => exact .exhausts (by rwa [Place.next?_modifyInside]) hmain
  | ends hn ho hr =>
    obtain ⟨-, ho'⟩ := ho.modifyInside unique edit hp hid hne
    exact .ends (by rwa [Place.next?_modifyInside]) ho' hr
  | climbs hn ho hr _ ih =>
    obtain ⟨⟨hin, hne'⟩, ho'⟩ := ho.modifyInside unique edit hp hid hne
    exact .climbs (by rwa [Place.next?_modifyInside]) ho' hr (ih ho.has hin hne')

end Unique

end Flow

end Workflow
