import Workflow.Proofs.Edit.Local
import Workflow.Proofs.Edit.Patch

namespace Workflow

namespace Body

variable {σ : Type}

/-- The body with another quorum and review, as far as it has them. -/
def adjust (quorum : Quorum) (review : Bool) : Body σ → Body σ
  | .action type _ _ => .action type quorum review
  | .subFlow template _ => .subFlow template quorum
  | other => other

@[simp] theorem type_adjust (quorum : Quorum) (review : Bool) (b : Body σ) :
    (b.adjust quorum review).type = b.type := by
  cases b <;> rfl

/-- Adjusting again, with what was set before where nothing is given, is adjusting once. -/
theorem adjust_adjust (quorum : Quorum) (quorum' : Option Quorum) (review : Bool)
    (review' : Option Bool) (b : Body σ) :
    (b.adjust quorum review).adjust (quorum'.getD (b.adjust quorum review).quorum)
      (review'.getD (b.adjust quorum review).isReviewed) =
        b.adjust (quorum'.getD quorum) (review'.getD review) := by
  cases b <;> rfl

/-- All else about a body stays. -/
theorem adjust_back (quorum : Quorum) (review : Bool) (b : Body σ) :
    (b.adjust quorum review).adjust b.quorum b.isReviewed = b := by
  cases b <;> rfl

end Body

namespace StepPatch

/-- Whether a patch sets nothing that steps of a type do not have: only actions are reviewed, and
only actions and sub-flows have a quorum. -/
structure Suits (p : StepPatch) (type : StepType) : Prop where
  review : p.review.isSome = true → type.isAction = true
  quorum : p.quorum.isSome = true → type.isAction = true ∨ type = .subFlow

def laidOver (p : StepPatch) (s : Step) : Step :=
  { s with
    title := p.title.getD s.title
    description := p.description.getD s.description
    milestone := p.milestone.getD s.milestone
    due := p.due.or s.due
    config := Table.overlay s.config p.config
    body := s.body.adjust (p.quorum.getD s.body.quorum) (p.review.getD s.body.isReviewed) }

variable {p q : StepPatch} {s t : Step}

theorem suits_of_isAction {type : StepType} (h : type.isAction = true) : p.Suits type :=
  ⟨fun _ => h, fun _ => .inl h⟩

theorem suits_subFlow_iff : p.Suits .subFlow ↔ p.review = none := by
  constructor
  · intro h
    simpa using mt h.review (by decide)
  · intro h
    exact ⟨by simp [h], fun _ => .inr rfl⟩

/-- Neither a review nor a quorum is set for a step that has none of them. -/
theorem suits_iff_none {type : StepType} (haction : type.isAction = false)
    (hflow : type ≠ .subFlow) : p.Suits type ↔ p.review = none ∧ p.quorum = none := by
  constructor
  · intro h
    exact ⟨by simpa using mt h.review (by simp [haction]),
      by simpa using mt h.quorum (by simp [haction, hflow])⟩
  · rintro ⟨hreview, hquorum⟩
    exact ⟨by simp [hreview], by simp [hquorum]⟩

/-- A patch is taken just when the type of the step has a use for what it sets. -/
theorem applyToBody_eq_ok_iff {id : String} {body body' : Body Step} :
    p.applyToBody id body = .ok body' ↔ p.Suits body.type ∧
      body' = body.adjust (p.quorum.getD body.quorum) (p.review.getD body.isReviewed) := by
  have hnone : ∀ type : StepType, type.isAction = false → type ≠ .subFlow →
      ((if p.review.isSome then (.error (.notReviewable id) : Except EditError (Body Step))
        else if p.quorum.isSome then .error (.noQuorum id) else .ok body) = .ok body' ↔
        p.Suits type ∧ body' = body) := by
    intro type haction hflow
    rw [suits_iff_none haction hflow]
    cases p.review <;> cases p.quorum <;> simp [eq_comm]
  cases body with
  | action type quorum review =>
    have hsuits : p.Suits type := suits_of_isAction type.property
    simp [applyToBody, Body.adjust, Body.type, Body.quorum, Body.isReviewed, hsuits, eq_comm]
  | subFlow template quorum =>
    rw [Body.type, suits_subFlow_iff]
    cases h : p.review <;> simp [applyToBody, Body.adjust, Body.quorum, h, eq_comm]
  | branch kind join paths => cases kind <;> exact hnone _ rfl (by intro h; cases h)
  | decision outcomes => exact hnone _ rfl (by intro h; cases h)
  | goto target => exact hnone _ rfl (by intro h; cases h)
  | gotoDestination label => exact hnone _ rfl (by intro h; cases h)
  | terminate status => exact hnone _ rfl (by intro h; cases h)

/-- A patch that suits a step is laid over it, and any other is refused. -/
theorem apply_eq_ok_iff : p.apply s = .ok t ↔ p.Suits s.type ∧ t = p.laidOver s := by
  unfold apply
  rw [bind_eq_ok_iff]
  constructor
  · rintro ⟨body, hbody, ht⟩
    obtain ⟨hsuits, rfl⟩ := applyToBody_eq_ok_iff.mp hbody
    cases ht
    exact ⟨hsuits, rfl⟩
  · rintro ⟨hsuits, rfl⟩
    exact ⟨_, applyToBody_eq_ok_iff.mpr ⟨hsuits, rfl⟩, rfl⟩

theorem not_suits_iff {type : StepType} : ¬ p.Suits type ↔
    p.review.isSome = true ∧ type.isAction = false ∨
      p.quorum.isSome = true ∧ type.isAction = false ∧ type ≠ .subFlow := by
  have hiff : p.Suits type ↔ (p.review.isSome = true → type.isAction = true) ∧
      (p.quorum.isSome = true → type.isAction = true ∨ type = .subFlow) :=
    ⟨fun h => ⟨h.review, h.quorum⟩, fun h => ⟨h.1, h.2⟩⟩
  rw [hiff]
  cases p.review.isSome <;> cases p.quorum.isSome <;> cases type.isAction <;> simp

theorem apply_eq_error_iff : (∃ e, p.apply s = .error e) ↔ ¬ p.Suits s.type := by
  constructor
  · rintro ⟨e, he⟩ hsuits
    rw [apply_eq_ok_iff.mpr ⟨hsuits, rfl⟩] at he
    cases he
  · intro hsuits
    cases h : p.apply s with
    | error e => exact ⟨e, rfl⟩
    | ok t => exact absurd (apply_eq_ok_iff.mp h).1 hsuits

@[simp] theorem type_laidOver (p : StepPatch) (s : Step) : (p.laidOver s).type = s.type :=
  Body.type_adjust _ _ s.body

theorem suits_overlay_iff {type : StepType} :
    (p.overlay q).Suits type ↔ p.Suits type ∧ q.Suits type := by
  constructor
  · rintro ⟨hreview, hquorum⟩
    simp only [overlay, Option.isSome_or, Bool.or_eq_true] at hreview hquorum
    exact ⟨⟨fun h => hreview (.inr h), fun h => hquorum (.inr h)⟩,
      ⟨fun h => hreview (.inl h), fun h => hquorum (.inl h)⟩⟩
  · rintro ⟨hp, hq⟩
    constructor <;> simp only [overlay, Option.isSome_or, Bool.or_eq_true]
    · exact fun h => h.elim hq.review hp.review
    · exact fun h => h.elim hq.quorum hp.quorum

/-- Two patches that are laid over a step one after the other are one patch. -/
theorem laidOver_overlay (hp : p.config.Sorted) (q : StepPatch) (s : Step) :
    (p.overlay q).laidOver s = q.laidOver (p.laidOver s) := by
  simp only [laidOver, overlay, hp.overlay_overlay, Body.adjust_adjust, Option.getD_or,
    Option.or_assoc]

theorem overlay_self (hp : p.config.Sorted) : p.overlay p = p := by
  simp only [overlay, Option.or_self, hp.overlay_self]

theorem apply_bind_eq_ok_iff (hp : p.config.Sorted) :
    (p.apply s >>= q.apply) = .ok t ↔ (p.overlay q).apply s = .ok t := by
  rw [bind_eq_ok_iff, apply_eq_ok_iff, suits_overlay_iff, laidOver_overlay hp]
  constructor
  · rintro ⟨s', hs, ht⟩
    obtain ⟨hfirst, rfl⟩ := apply_eq_ok_iff.mp hs
    obtain ⟨hsecond, rfl⟩ := apply_eq_ok_iff.mp ht
    rw [type_laidOver] at hsecond
    exact ⟨⟨hfirst, hsecond⟩, rfl⟩
  · rintro ⟨⟨hfirst, hsecond⟩, rfl⟩
    refine ⟨p.laidOver s, apply_eq_ok_iff.mpr ⟨hfirst, rfl⟩,
      apply_eq_ok_iff.mpr ⟨?_, rfl⟩⟩
    rwa [type_laidOver]

theorem apply_bind_self (hp : p.config.Sorted) (s : Step) :
    (p.apply s >>= p.apply) = p.apply s := by
  cases h : p.apply s with
  | error e => rfl
  | ok t =>
    rw [← h, apply_bind_eq_ok_iff hp |>.mpr (by rwa [overlay_self hp]), h]

theorem inner_laidOver (p : StepPatch) (s : Step) : (p.laidOver s).inner = s.inner := by
  unfold Step.inner laidOver
  cases s.body <;> rfl

/-- What suits a step is set in its body. -/
theorem Suits.body_laidOver (h : p.Suits s.type) :
    (p.laidOver s).body.quorum = p.quorum.getD s.body.quorum ∧
      (p.laidOver s).body.isReviewed = p.review.getD s.body.isReviewed := by
  obtain ⟨id, milestone, title, description, due, config, body⟩ := s
  have hnone : body.type.isAction = false → body.type ≠ .subFlow →
      p.review = none ∧ p.quorum = none := fun haction hflow =>
    (suits_iff_none haction hflow).mp h
  cases body with
  | action type quorum review => exact ⟨rfl, rfl⟩
  | subFlow template quorum =>
    refine ⟨rfl, ?_⟩
    rw [suits_subFlow_iff.mp h]
    rfl
  | branch kind join paths =>
    obtain ⟨hreview, hquorum⟩ := hnone (by cases kind <;> rfl) (by cases kind <;> nofun)
    rw [hreview, hquorum]
    exact ⟨rfl, rfl⟩
  | _ =>
    obtain ⟨hreview, hquorum⟩ := hnone rfl nofun
    rw [hreview, hquorum]
    exact ⟨rfl, rfl⟩

theorem find?_config_laidOver (hp : p.config.Sorted) (s : Step) (key : String) :
    (p.laidOver s).config.find? key = (p.config.find? key).or (s.config.find? key) := by
  change Table.find? (Table.overlay s.config p.config) key = _
  rw [Table.find?_overlay, Table.find?_reverse hp.nodup]

/-- A patch is refused just when it sets a review for a step that is no action, or a quorum for one
that is neither an action nor a sub-flow. Otherwise it sets what is given, key by key in the
settings, and leaves all else alone: the id, the type, what is nested in the step, and the rest of
its body. Once it is laid on, laying it on again changes nothing; and two patches one after the
other are taken just when the second laid over the first is taken, with the same step in the end. -/
theorem apply_overlays {p : StepPatch} (hp : p.config.Sorted) (q : StepPatch) (s : Step) :
    ((∃ e, p.apply s = .error e) ↔
      p.review.isSome = true ∧ s.type.isAction = false ∨
        p.quorum.isSome = true ∧ s.type.isAction = false ∧ s.type ≠ .subFlow) ∧
    (∀ t, p.apply s = .ok t →
      t.id = s.id ∧ t.type = s.type ∧ t.inner = s.inner ∧
      t.title = p.title.getD s.title ∧ t.description = p.description.getD s.description ∧
      t.milestone = p.milestone.getD s.milestone ∧ t.due = p.due.or s.due ∧
      (∀ key, t.config.find? key = (p.config.find? key).or (s.config.find? key)) ∧
      t.body.quorum = p.quorum.getD s.body.quorum ∧
      t.body.isReviewed = p.review.getD s.body.isReviewed ∧
      t.body.adjust s.body.quorum s.body.isReviewed = s.body) ∧
    (p.apply s >>= p.apply) = p.apply s ∧
    ∀ t, (p.apply s >>= q.apply) = .ok t ↔ (p.overlay q).apply s = .ok t := by
  refine ⟨?_, ?_, apply_bind_self hp s, fun t => apply_bind_eq_ok_iff hp⟩
  · rw [apply_eq_error_iff, not_suits_iff]
  · intro t ht
    obtain ⟨hsuits, rfl⟩ := apply_eq_ok_iff.mp ht
    obtain ⟨hquorum, hreview⟩ := hsuits.body_laidOver
    exact ⟨rfl, type_laidOver p s, inner_laidOver p s, rfl, rfl, rfl, rfl,
      find?_config_laidOver hp s, hquorum, hreview, s.body.adjust_back _ _⟩

/-- A form takes two patches, of which the second sets one setting of the first again. A sub-flow
takes the first, which sets a quorum, and not the second, which sets a review. -/
theorem apply_overlays_form :
    let p : StepPatch :=
      { quorum := some .all, config := [("note", .text "draft"), ("prompt", .text "totals")] }
    let q : StepPatch :=
      { title := some "Intake", review := some true, config := [("note", .text "final")] }
    p.config.Sorted ∧
      (∃ t, (p.apply (.ofType "s" .form) >>= q.apply) = .ok t ∧ t.title = "Intake" ∧
        t.body.quorum = .all ∧ t.body.isReviewed = true ∧
        t.config = [("note", .text "final"), ("prompt", .text "totals")]) ∧
      ∃ t e, p.apply (.ofType "s" .subFlow) = .ok t ∧
        q.apply (.ofType "s" .subFlow) = .error e := by
  intro p q
  have hp : p.config.Sorted := show List.Pairwise (· < ·) ["note", "prompt"] by decide
  have hq : q.config.Sorted := List.pairwise_singleton _ "note"
  obtain ⟨-, -, -, hjoin⟩ := apply_overlays hp q (.ofType "s" .form)
  obtain ⟨hrefused, -⟩ := apply_overlays hq q (.ofType "s" .subFlow)
  obtain ⟨e, he⟩ := hrefused.mpr (.inl ⟨rfl, rfl⟩)
  exact ⟨hp, ⟨_, (hjoin _).mpr rfl, rfl, rfl, rfl, rfl⟩, _, e, rfl, he⟩

end StepPatch

namespace Edit

variable {p q : StepPatch} {f g : Flow} {target : Target} {id : String}

/-- An update of a step fails, whatever it sets, or it reaches the same step in the same place. -/
theorem update_reaches (f : Flow) (target : Target) (id : String) :
    (∀ p, ∃ e, (steps target (.update id p)).apply f = .error e) ∨
      ∃ (place : Step → Flow) (s : Step),
        s.id = id ∧ place s = f ∧ ∀ (p : StepPatch) (t : Step), t.id = id →
          (steps target (.update id p)).apply (place t) = (p.apply t).map place := by
  by_cases inside : target = .mainPath
  · subst inside
    cases hfind : f.find? id with
    | none => exact .inl fun p => ⟨_, by rw [apply, Flow.updateStep, hfind]; rfl⟩
    | some p =>
      obtain ⟨c, pre, post, hfill, hahead, hpre⟩ := f.foundIn hfind
      refine .inr ⟨fun t => f.plug c (pre ++ t :: post), p.step, (Flow.has_of_find? hfind).2,
        Flow.plug_eq_self hfill, fun patch t ht => ?_⟩
      exact Flow.updateStep_plug ht hahead hpre f post patch.apply
  · have hlist : ∀ p, target = .mainPath → (ListEdit.update id p).isUpdate = false :=
      fun _ h => absurd h inside
    cases hsteps : f.stepsAt? target with
    | none =>
      left
      intro p
      rw [apply_list (hlist p)]
      exact Flow.updateTarget_none hsteps _
    | some old =>
      obtain ⟨c, names, hf⟩ := Flow.exists_names hsteps
      cases hfind : Siblings.find? id old with
      | none =>
        left
        intro p
        exact ⟨_, by rw [apply_names names hf (hlist p), ListEdit.apply, hfind]; rfl⟩
      | some s =>
        obtain ⟨hs, pre, post, rfl, hpre⟩ := List.find?_eq_some_iff_append.mp hfind
        rw [beq_iff_eq] at hs
        refine .inr ⟨fun t => f.plug c (pre ++ t :: post), s, hs, hf, fun p t ht => ?_⟩
        have hnot : t.id ∉ pre.map Step.id := by
          rw [ht]
          simpa using hpre
        subst ht
        rw [apply_names (names.plug _) (f.plug_plug c _ _) (hlist p), ListEdit.apply_update hnot]
        cases p.apply t <;> rfl

/-- Two updates of one step are one, with what the second sets laid over what the first sets. -/
theorem update_overlay (hp : p.config.Sorted) :
    ((steps target (.update id p)).apply f >>= (steps target (.update id q)).apply) = .ok g ↔
      (steps target (.update id (p.overlay q))).apply f = .ok g := by
  rcases update_reaches f target id with hfails | ⟨place, s, hs, rfl, hupdate⟩
  · obtain ⟨e, he⟩ := hfails p
    obtain ⟨e', he'⟩ := hfails (p.overlay q)
    rw [he, he']
    constructor <;> nofun
  · have hkeeps : ∀ t, p.apply s = .ok t → t.id = id := by
      intro t ht
      obtain ⟨-, rfl⟩ := StepPatch.apply_eq_ok_iff.mp ht
      exact hs
    have hjoin : ((p.apply s).map place >>= (steps target (.update id q)).apply) =
        (p.apply s >>= q.apply).map place := by
      cases ht : p.apply s with
      | error e => rfl
      | ok t => exact hupdate q t (hkeeps t ht)
    simp only [hupdate _ s hs, hjoin, map_eq_ok_iff, StepPatch.apply_bind_eq_ok_iff hp]

end Edit

end Workflow
