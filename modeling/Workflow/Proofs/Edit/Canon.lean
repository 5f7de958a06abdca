import Workflow.Proofs.Document.Reading
import Workflow.Proofs.Edit.Batch

namespace Workflow

/-- Two computations that agree up to `k` and `l`, continued so that their results agree up to `c`
and `c'`. -/
theorem map_bind_congr {ε α α' β β' γ δ : Type} {x : Except ε α} {x' : Except ε α'}
    {k : α → γ} {l : α' → γ} (h : x.map k = x'.map l)
    {g : α → Except ε β} {g' : α' → Except ε β'} {c : β → δ} {c' : β' → δ}
    (hg : ∀ a a', k a = l a' → (g a).map c = (g' a').map c') :
    (x >>= g).map c = (x' >>= g').map c' := by
  cases x with
  | error e =>
    cases x' with
    | error e' => simpa [Except.map, bind, Except.bind] using h
    | ok a' => cases h
  | ok a =>
    cases x' with
    | error e' => cases h
    | ok a' => exact hg a a' (Except.ok.inj h)

theorem map_orError {α β : Type} {e : EditError} {o : Option α} {k : α → β} :
    (orError e o).map k = orError e (o.map k) := by
  cases o <;> rfl

namespace Siblings

variable (id anchor : String) (steps : List Step)

theorem find?_canon : find? id (steps.map Step.canon) = (find? id steps).map Step.canon := by
  have hid : (fun s : Step => s.id == id) ∘ Step.canon = fun s => s.id == id := by
    funext s
    exact congrArg (· == id) s.id_canon
  rw [find?, List.find?_map, hid, find?]

theorem addAfter?_canon {new new' : Step} (hnew : new'.canon = new.canon) :
    (addAfter? anchor new' (steps.map Step.canon)).map (List.map Step.canon) =
      (addAfter? anchor new steps).map (List.map Step.canon) := by
  induction steps with
  | nil => rfl
  | cons s rest ih =>
    by_cases h : s.id = anchor
    · simp [addAfter?, h, hnew, Function.comp_def]
    · have hcons := congrArg (Option.map (s.canon :: ·)) ih
      simpa [addAfter?, h, Function.comp_def] using hcons

theorem addBefore?_canon (new : Step) :
    (addBefore? anchor new (steps.map Step.canon)).map (List.map Step.canon) =
      (addBefore? anchor new steps).map (List.map Step.canon) := by
  induction steps with
  | nil => rfl
  | cons s rest ih =>
    by_cases h : s.id = anchor
    · simp [addBefore?, h, Function.comp_def]
    · have hcons := congrArg (Option.map (s.canon :: ·)) ih
      simpa [addBefore?, h, Function.comp_def] using hcons

theorem take?_canon : take? id (steps.map Step.canon) =
    (take? id steps).map fun r => (r.1.canon, r.2.map Step.canon) := by
  induction steps with
  | nil => rfl
  | cons s rest ih =>
    by_cases h : s.id = id
    · simp [take?, h]
    · simp [take?, h, ih, Function.comp_def]

theorem move?_canon (after : Option String) :
    (move? id after (steps.map Step.canon)).map (List.map Step.canon) =
      (move? id after steps).map (List.map Step.canon) := by
  unfold move?
  split
  · rfl
  · rw [take?_canon]
    cases take? id steps with
    | none => rfl
    | some r =>
      cases after with
      | none => simp [Function.comp_def]
      | some anchor => exact addAfter?_canon anchor r.2 r.1.canon_canon

end Siblings

theorem StepPatch.apply_canon (p : StepPatch) (s : Step) :
    p.apply s.canon = (p.apply s).map Step.canon := by
  obtain ⟨id, milestone, title, description, due, config, body⟩ := s
  unfold StepPatch.apply StepPatch.applyToBody
  cases body with
  | action type quorum review => rfl
  | subFlow template quorum => cases p.review.isSome <;> rfl
  | _ => cases p.review.isSome <;> cases p.quorum.isSome <;> rfl

/-- An edit of a list of steps, seen from the canonical forms of the steps. -/
theorem ListEdit.apply_canon (target : Target) (taken : List String) (steps : List Step)
    (edit : ListEdit) :
    (edit.apply target taken (steps.map Step.canon)).map (List.map Step.canon) =
      (edit.apply target taken steps).map (List.map Step.canon) := by
  cases edit with
  | addAfter anchor step =>
    refine map_bind_congr (k := id) (l := id) rfl fun _ _ _ => ?_
    cases anchor with
    | none => simp [pure, Except.pure, Except.map]
    | some anchor => rw [map_orError, map_orError, Siblings.addAfter?_canon anchor steps rfl]
  | addBefore anchor step =>
    refine map_bind_congr (k := id) (l := id) rfl fun _ _ _ => ?_
    rw [map_orError, map_orError, Siblings.addBefore?_canon anchor steps]
  | remove id =>
    simp only [ListEdit.apply]
    rw [Siblings.take?_canon]
    cases Siblings.take? id steps with
    | none => rfl
    | some r => simp [orError, Except.map]
  | update id patch =>
    refine map_bind_congr (k := fun s => s) (l := Step.canon) ?_ fun s' s hs => ?_
    · rw [Siblings.find?_canon, map_orError, map_orError, Option.map_map]
      rfl
    · obtain rfl : s' = s.canon := hs
      refine map_bind_congr (k := Step.canon) (l := Step.canon) ?_ fun t' t ht => ?_
      · rw [StepPatch.apply_canon]
        cases patch.apply s <;> simp [Except.map]
      · exact congrArg Except.ok
          (Sequence.map_modifyFirst (fun s => by simp) Step.canon_canon ht steps)
  | move id after =>
    refine map_bind_congr (k := fun _ => ()) (l := fun _ => ()) ?_ fun _ _ _ => ?_
    · rw [Siblings.find?_canon, map_orError, map_orError]
      simp [Function.comp_def]
    · rw [map_orError, map_orError, Siblings.move?_canon]

theorem Step.standsIn_canon (id : String) (steps : List Step) :
    Step.standsIn id (steps.map Step.canon) = Step.standsIn id steps := by
  unfold Step.standsIn
  rw [List.find?_map]
  simp only [Function.comp_def, Step.ids_canon]
  cases steps.find? fun s => decide (id ∈ s.ids) <;> simp

/-- Two edits of lists of steps, the first on canonical forms, make the same up to canonical
forms. -/
def Step.EditsAlike (edit' edit : List Step → List Step) : Prop :=
  ∀ steps, (edit' (steps.map Step.canon)).map Step.canon = (edit steps).map Step.canon

section Modify

variable (id : String) {edit edit' : List Step → List Step}

/-- The edit of a nested list, from the edit of the list itself and of those below it. -/
theorem Step.modifyAround_canon (h : Step.EditsAlike edit' edit) {steps : List Step}
    (hbelow : (Step.modifyBelow id edit' (steps.map Step.canon)).map Step.canon =
      (Step.modifyBelow id edit steps).map Step.canon) :
    (Step.modifyAround id edit' (steps.map Step.canon)).map Step.canon =
      (Step.modifyAround id edit steps).map Step.canon := by
  unfold Step.modifyAround
  rw [Step.standsIn_canon]
  split
  · exact h steps
  · exact hbelow

mutual

theorem Step.modifyBelow_canon (h : Step.EditsAlike edit' edit) (steps : List Step) :
    (Step.modifyBelow id edit' (steps.map Step.canon)).map Step.canon =
      (Step.modifyBelow id edit steps).map Step.canon := by
  match steps with
  | [] => simp [Step.modifyBelow]
  | ⟨sid, milestone, title, description, due, config, body⟩ :: rest =>
    have hids : Body.ids body.canon = body.ids := by
      have hstep := Step.ids_canon ⟨sid, milestone, title, description, due, config, body⟩
      simpa [Step.canon, Step.ids] using hstep
    rw [List.map_cons, Step.canon, Step.modifyBelow, Step.modifyBelow, hids]
    split
    · simp [Step.canon, Body.modify_canon h body]
    · rw [List.map_cons, List.map_cons, Step.modifyBelow_canon h rest, ← Step.canon,
        Step.canon_canon]

theorem Body.modify_canon (h : Step.EditsAlike edit' edit) (b : Body Step) :
    (b.canon.modify id edit').canon = (b.modify id edit).canon := by
  match b with
  | .branch kind join paths =>
    simp [Body.canon, Body.modify, Path.canonAll_eq, Path.modifyIn_canon h paths]
  | .decision outcomes =>
    simp [Body.canon, Body.modify, Outcome.canonAll_eq, Outcome.modifyIn_canon h outcomes]
  | .action _ _ _ => simp [Body.canon, Body.modify]
  | .subFlow _ _ => simp [Body.canon, Body.modify]
  | .goto _ => simp [Body.canon, Body.modify]
  | .gotoDestination _ => simp [Body.canon, Body.modify]
  | .terminate _ => simp [Body.canon, Body.modify]

theorem Path.modifyIn_canon (h : Step.EditsAlike edit' edit) (paths : List (Path Step)) :
    (Path.modifyIn id edit' (paths.map Path.canon)).map Path.canon =
      (Path.modifyIn id edit paths).map Path.canon := by
  match paths with
  | [] => simp [Path.modifyIn]
  | ⟨pid, label, guard, steps⟩ :: rest =>
    have hsteps := Step.modifyAround_canon id h (Step.modifyBelow_canon h steps)
    unfold Step.modifyAround at hsteps
    rw [List.map_cons, Path.canon, Path.modifyIn, Path.modifyIn, Step.canonAll_eq, Step.idsOf_canon]
    split
    · simp [Path.canon, Step.canonAll_eq, hsteps]
    · rw [List.map_cons, List.map_cons, Path.modifyIn_canon h rest]
      simp [Path.canon, Step.canonAll_eq]

theorem Outcome.modifyIn_canon (h : Step.EditsAlike edit' edit) (outcomes : List (Outcome Step)) :
    (Outcome.modifyIn id edit' (outcomes.map Outcome.canon)).map Outcome.canon =
      (Outcome.modifyIn id edit outcomes).map Outcome.canon := by
  match outcomes with
  | [] => simp [Outcome.modifyIn]
  | ⟨oid, label, steps⟩ :: rest =>
    have hsteps := Step.modifyAround_canon id h (Step.modifyBelow_canon h steps)
    unfold Step.modifyAround at hsteps
    rw [List.map_cons, Outcome.canon, Outcome.modifyIn, Outcome.modifyIn, Step.canonAll_eq,
      Step.idsOf_canon]
    split
    · simp [Outcome.canon, Step.canonAll_eq, hsteps]
    · rw [List.map_cons, List.map_cons, Outcome.modifyIn_canon h rest]
      simp [Outcome.canon, Step.canonAll_eq]

end

theorem Flow.modifyAround_canon (h : Step.EditsAlike edit' edit) (f : Flow) :
    (f.canon.modifyAround id edit').canon = (f.modifyAround id edit).canon := by
  rw [Flow.canon_eq_iff]
  refine ⟨rfl, rfl, rfl, ?_, rfl⟩
  simp only [Flow.modifyAround, Flow.canon, Step.canonAll_eq]
  exact Step.modifyAround_canon id h (Step.modifyBelow_canon id h f.steps)

end Modify

namespace Flow

variable (f : Flow) (id : String)

theorem replaceStep_canon {new new' : Step} (hnew : new'.canon = new.canon) :
    (f.canon.replaceStep id new').canon = (f.replaceStep id new).canon :=
  modifyAround_canon id
    (Sequence.map_modifyFirst (fun s => by simp) Step.canon_canon hnew) f

theorem updateStep_canon {change : Step → Except EditError Step}
    (hchange : ∀ s, (change s.canon).map Step.canon = (change s).map Step.canon) :
    (f.canon.updateStep id change).map canon = (f.updateStep id change).map canon := by
  refine map_bind_congr (k := fun p => p) (l := Place.canon) ?_ fun p' p hp => ?_
  · rw [find?_canon, map_orError, map_orError, Option.map_map]
    rfl
  · obtain rfl : p' = p.canon := hp
    refine map_bind_congr (hchange p.step) fun t' t ht => ?_
    exact congrArg Except.ok (f.replaceStep_canon id ht)

/-- Changing the paths of a branch does not depend on the logic of guards that join nothing. -/
theorem updateBranch_canon
    {change change' : List (Path Step) → Except EditError (List (Path Step))}
    (hchange : ∀ paths, (change' (paths.map Path.canon)).map (List.map Path.canon) =
      (change paths).map (List.map Path.canon)) :
    (f.canon.updateBranch id change').map canon = (f.updateBranch id change).map canon := by
  unfold updateBranch
  rw [find?_canon]
  cases f.find? id with
  | none => rfl
  | some p =>
    simp only [Option.map_some, Place.canon, Step.body_canon]
    cases p.step.body with
    | branch kind join paths =>
      simp only [Body.canon, Path.canonAll_eq]
      refine map_bind_congr (hchange paths) fun paths' paths hpaths => ?_
      refine congrArg Except.ok (f.replaceStep_canon id ?_)
      simp [Step.canon_eq, Body.canon, Path.canonAll_eq, hpaths]
    | _ => rfl

/-- Neither does changing the outcomes of a decision. -/
theorem updateDecision_canon
    {change change' : List (Outcome Step) → Except EditError (List (Outcome Step))}
    (hchange : ∀ outcomes, (change' (outcomes.map Outcome.canon)).map (List.map Outcome.canon) =
      (change outcomes).map (List.map Outcome.canon)) :
    (f.canon.updateDecision id change').map canon = (f.updateDecision id change).map canon := by
  unfold updateDecision
  rw [find?_canon]
  cases f.find? id with
  | none => rfl
  | some p =>
    simp only [Option.map_some, Place.canon, Step.body_canon]
    cases p.step.body with
    | decision outcomes =>
      simp only [Body.canon, Outcome.canonAll_eq]
      refine map_bind_congr (hchange outcomes) fun outcomes' outcomes houtcomes => ?_
      refine congrArg Except.ok (f.replaceStep_canon id ?_)
      simp [Step.canon_eq, Body.canon, Outcome.canonAll_eq, houtcomes]
    | _ => rfl

end Flow

theorem Path.update_canon (id : String)
    {change change' : Path Step → Except EditError (Path Step)}
    (hchange : ∀ p, (change' p.canon).map Path.canon = (change p).map Path.canon)
    (paths : List (Path Step)) :
    (Path.update id change' (paths.map Path.canon)).map (List.map Path.canon) =
      (Path.update id change paths).map (List.map Path.canon) := by
  refine map_bind_congr (k := fun p => p) (l := Path.canon) ?_ fun p' p hp => ?_
  · rw [List.find?_map, map_orError, map_orError, Option.map_map]
    rfl
  · obtain rfl : p' = p.canon := hp
    refine map_bind_congr (hchange p) fun q' q hq => ?_
    exact congrArg Except.ok
      (Sequence.map_modifyFirst (c := Path.canon) (fun _ => rfl) Path.canon_canon hq paths)

theorem Outcome.update_canon (id : String)
    {change change' : Outcome Step → Except EditError (Outcome Step)}
    (hchange : ∀ o, (change' o.canon).map Outcome.canon = (change o).map Outcome.canon)
    (outcomes : List (Outcome Step)) :
    (Outcome.update id change' (outcomes.map Outcome.canon)).map (List.map Outcome.canon) =
      (Outcome.update id change outcomes).map (List.map Outcome.canon) := by
  refine map_bind_congr (k := fun o => o) (l := Outcome.canon) ?_ fun o' o ho => ?_
  · rw [List.find?_map, map_orError, map_orError, Option.map_map]
    rfl
  · obtain rfl : o' = o.canon := ho
    refine map_bind_congr (hchange o) fun q' q hq => ?_
    exact congrArg Except.ok
      (Sequence.map_modifyFirst (c := Outcome.canon) (fun _ => rfl) Outcome.canon_canon hq outcomes)

namespace Flow

variable (f : Flow)

/-- Neither does changing a list of steps. -/
theorem updateTarget_canon (target : Target)
    {change change' : List Step → Except EditError (List Step)}
    (hchange : ∀ steps, (change' (steps.map Step.canon)).map (List.map Step.canon) =
      (change steps).map (List.map Step.canon)) :
    (f.canon.updateTarget target change').map canon = (f.updateTarget target change).map canon := by
  cases target with
  | mainPath =>
    have hmain : (change' f.canon.steps).map (List.map Step.canon) =
        (change f.steps).map (List.map Step.canon) := by
      rw [canon, Step.canonAll_eq]
      exact hchange f.steps
    refine map_bind_congr hmain fun steps' steps hsteps => congrArg Except.ok ?_
    exact canon_eq_iff.mpr ⟨rfl, rfl, rfl, hsteps, rfl⟩
  | path branch id =>
    refine f.updateBranch_canon branch (Path.update_canon id fun p => ?_)
    have hinner : (change' p.canon.steps).map (List.map Step.canon) =
        (change p.steps).map (List.map Step.canon) := by
      rw [Path.canon, Step.canonAll_eq]
      exact hchange p.steps
    refine map_bind_congr hinner fun steps' steps hsteps => congrArg Except.ok ?_
    simp [Path.canon, Step.canonAll_eq, hsteps]
  | outcome decision id =>
    refine f.updateDecision_canon decision (Outcome.update_canon id fun o => ?_)
    have hinner : (change' o.canon.steps).map (List.map Step.canon) =
        (change o.steps).map (List.map Step.canon) := by
      rw [Outcome.canon, Step.canonAll_eq]
      exact hchange o.steps
    refine map_bind_congr hinner fun steps' steps hsteps => congrArg Except.ok ?_
    simp [Outcome.canon, Step.canonAll_eq, hsteps]

section Milestones

variable (id : String)

theorem addMilestone_canon (m : Milestone) :
    f.canon.addMilestone m = (f.addMilestone m).map canon := by
  have hfind : f.canon.findMilestone? m.id = f.findMilestone? m.id := rfl
  unfold addMilestone
  rw [hfind]
  split
  · rfl
  · split <;> rfl

theorem removeMilestone_canon : f.canon.removeMilestone id = (f.removeMilestone id).map canon := by
  have hfind : f.canon.findMilestone? id = f.findMilestone? id := rfl
  have husers : f.canon.steps.countP (fun s => s.milestone == id) =
      f.steps.countP fun s => s.milestone == id := by
    simp [canon, Step.canonAll_eq, List.countP_map, Function.comp_def]
  unfold removeMilestone
  rw [hfind, husers]
  split
  · rfl
  · dsimp only
    split <;> rfl

theorem updateMilestone_canon (patch : MilestonePatch) :
    f.canon.updateMilestone id patch = (f.updateMilestone id patch).map canon := by
  have hfind : f.canon.findMilestone? id = f.findMilestone? id := rfl
  unfold updateMilestone
  rw [hfind]
  cases f.findMilestone? id <;> rfl

end Milestones

theorem map_canon_map_canon (x : Except EditError Flow) :
    (x.map canon).map canon = x.map canon := by
  cases x <;> simp [Except.map]

end Flow

theorem Path.any_id_canon (id : String) (paths : List (Path Step)) :
    (paths.map Path.canon).any (fun p => p.id == id) = paths.any fun p => p.id == id := by
  simp [List.any_map, Function.comp_def, Path.canon]

theorem Outcome.any_id_canon (id : String) (outcomes : List (Outcome Step)) :
    (outcomes.map Outcome.canon).any (fun o => o.id == id) = outcomes.any fun o => o.id == id := by
  simp [List.any_map, Function.comp_def, Outcome.canon]

/-- An edit of the canonical form of a flow does what the edit of the flow does. -/
theorem Edit.apply_canon (f : Flow) (e : Edit) :
    (e.apply f.canon).map Flow.canon = (e.apply f).map Flow.canon := by
  cases e with
  | steps target edit =>
    have hlist : (f.canon.updateTarget target fun steps => edit.apply target f.canon.ids steps).map
        Flow.canon = (f.updateTarget target fun steps => edit.apply target f.ids steps).map
          Flow.canon := by
      rw [f.ids_canon]
      exact f.updateTarget_canon target fun steps => edit.apply_canon target f.ids steps
    cases target with
    | mainPath =>
      cases edit with
      | update id patch =>
        refine f.updateStep_canon id fun s => ?_
        rw [patch.apply_canon]
        cases patch.apply s <;> simp [Except.map]
      | _ => exact hlist
    | path branch id => exact hlist
    | outcome decision id => exact hlist
  | addPath branch path =>
    refine f.updateBranch_canon branch fun paths => ?_
    rw [Path.any_id_canon, f.ids_canon]
    split
    · rfl
    · split
      · rfl
      · refine map_bind_congr (k := fun u => u) (l := fun u => u) rfl fun _ _ _ => ?_
        exact congrArg Except.ok (by simp [Function.comp_def])
  | removePath branch id =>
    refine f.updateBranch_canon branch fun paths => ?_
    rw [Path.any_id_canon, Sequence.map_dropFirst (p := fun p => p.id == id) fun _ => rfl]
    split
    · exact congrArg Except.ok (by simp [Function.comp_def])
    · rfl
  | setGuard branch id guard =>
    refine f.updateBranch_canon branch (Path.update_canon id fun p => congrArg Except.ok ?_)
    simp [Path.canon, Step.canonAll_eq]
  | addOutcome decision outcome =>
    refine f.updateDecision_canon decision fun outcomes => ?_
    rw [Outcome.any_id_canon, f.ids_canon]
    split
    · rfl
    · split
      · rfl
      · refine map_bind_congr (k := fun u => u) (l := fun u => u) rfl fun _ _ _ => ?_
        exact congrArg Except.ok (by simp [Function.comp_def])
  | removeOutcome decision id =>
    refine f.updateDecision_canon decision fun outcomes => ?_
    rw [Outcome.any_id_canon, Sequence.map_dropFirst (p := fun o => o.id == id) fun _ => rfl]
    split
    · exact congrArg Except.ok (by simp [Function.comp_def])
    · rfl
  | setOutcomeLabel decision id label =>
    refine f.updateDecision_canon decision (Outcome.update_canon id fun o => congrArg Except.ok ?_)
    simp [Outcome.canon, Step.canonAll_eq]
  | setTerminateStatus id status =>
    simp only [apply]
    refine f.updateStep_canon id fun s => ?_
    rw [Step.body_canon]
    cases s.body <;> simp [Body.canon, Except.map, Step.canon_eq]
  | setGotoTarget id target =>
    simp only [apply]
    refine f.updateStep_canon id fun s => ?_
    rw [Step.body_canon]
    cases s.body <;> simp [Body.canon, Except.map, Step.canon_eq]
  | addMilestone m =>
    simp only [apply]
    rw [f.addMilestone_canon, Flow.map_canon_map_canon]
  | removeMilestone id =>
    simp only [apply]
    rw [f.removeMilestone_canon, Flow.map_canon_map_canon]
  | updateMilestone id patch =>
    simp only [apply]
    rw [f.updateMilestone_canon, Flow.map_canon_map_canon]
  | rename name =>
    refine congrArg Except.ok (Flow.canon_eq_iff.mpr ⟨rfl, rfl, rfl, ?_, rfl⟩)
    simp [Flow.canon, Step.canonAll_eq]

/-- An edit cannot tell flows with one canonical form apart. -/
theorem Edit.apply_alike {f g : Flow} (h : f.canon = g.canon) (e : Edit) :
    (e.apply f).map Flow.canon = (e.apply g).map Flow.canon := by
  rw [← e.apply_canon f, h, e.apply_canon g]

def BatchResult.canon (r : BatchResult) : BatchResult :=
  { r with flow := r.flow.map Flow.canon }

/-- A batch cannot tell flows with one canonical form apart. -/
theorem Flow.applyAll_alike {f g : Flow} (h : f.canon = g.canon) (edits : List Edit) :
    (f.applyAll edits).canon = (g.applyAll edits).canon := by
  induction edits generalizing f g with
  | nil => simp [Flow.applyAll_nil, BatchResult.canon, h]
  | cons e rest ih =>
    have hedit := e.apply_alike h
    cases hf : e.apply f with
    | error error =>
      cases hg : e.apply g with
      | error error' =>
        obtain rfl : error = error' := by simpa [hf, hg, Except.map] using hedit
        rw [Flow.applyAll_error hf, Flow.applyAll_error hg, Edit.report, Edit.report, hf, hg]
      | ok g' => simp [hf, hg, Except.map] at hedit
    | ok f' =>
      cases hg : e.apply g with
      | error error => simp [hf, hg, Except.map] at hedit
      | ok g' =>
        have hrest := ih (f := f') (g := g') (by simpa [hf, hg, Except.map] using hedit)
        simp only [BatchResult.canon, BatchResult.mk.injEq] at hrest
        rw [Flow.applyAll_ok hf, Flow.applyAll_ok hg, Edit.report, Edit.report, hf, hg]
        simp [BatchResult.canon, hrest.1, hrest.2]

end Workflow
