import Mathlib.Data.List.Nodup
import Mathlib.Data.List.Perm.Basic
import Workflow.Edit.Apply
import Workflow.Proofs.Edit.Graft

namespace Workflow

/-- A piece of a list goes and another comes, maybe elsewhere; the others keep their order. -/
def Swaps (old new before after : List String) : Prop :=
  ∃ pre post pre' post', before = pre ++ old ++ post ∧ after = pre' ++ new ++ post' ∧
    pre ++ post = pre' ++ post'

theorem Splices.swaps {old new before after : List String} (h : Splices old new before after) :
    Swaps old new before after := by
  obtain ⟨pre, post, hbefore, hafter⟩ := h
  exact ⟨pre, post, pre, post, hbefore, hafter, rfl⟩

/-- What is taken out of a list may come back anywhere. -/
theorem Splices.moves {old new before rest after : List String} (htake : Splices old [] before rest)
    (hput : Splices [] new rest after) : Swaps old new before after := by
  obtain ⟨pre, post, hbefore, hrest⟩ := htake
  obtain ⟨pre', post', hrest', hafter⟩ := hput
  exact ⟨pre, post, pre', post', hbefore, hafter, by
    simpa using hrest.symm.trans hrest'⟩

namespace Swaps

variable {old new before after : List String}

/-- A change that keeps all ids takes nothing out and brings nothing. -/
theorem of_eq (h : after = before) : Swaps [] [] before after :=
  ⟨[], before, [], before, by simp, by simp [h], rfl⟩

theorem within (h : Swaps old new before after) {whole whole' : List String}
    (around : Splices before after whole whole') : Swaps old new whole whole' := by
  obtain ⟨pre, post, pre', post', rfl, rfl, hkept⟩ := h
  obtain ⟨a, b, rfl, rfl⟩ := around
  exact ⟨a ++ pre, post ++ b, a ++ pre', post' ++ b, by simp, by simp, by
    simpa using congrArg (fun kept => a ++ kept ++ b) hkept⟩

theorem perm (h : Swaps old new before after) : (after ++ old).Perm (before ++ new) := by
  obtain ⟨pre, post, pre', post', rfl, rfl, hkept⟩ := h
  rw [List.perm_iff_count]
  intro id
  have hcount := congrArg (List.count id) hkept
  simp only [List.count_append] at hcount ⊢
  omega

theorem filter_eq (h : Swaps old new before after) (hbefore : before.Nodup) (hafter : after.Nodup) :
    after.filter (fun id => decide (id ∉ new)) = before.filter fun id => decide (id ∉ old) := by
  have outside : ∀ pre piece post : List String, (pre ++ piece ++ post).Nodup →
      (pre ++ piece ++ post).filter (fun id => decide (id ∉ piece)) = pre ++ post := by
    intro pre piece post hnodup
    have hpre : ∀ id ∈ pre, id ∉ piece := by
      intro id hid hin
      exact (List.nodup_append.mp (List.nodup_append.mp hnodup).1).2.2 id hid id hin rfl
    have hpost : ∀ id ∈ post, id ∉ piece := by
      intro id hid hin
      exact (List.nodup_append.mp hnodup).2.2 id (List.mem_append_right _ hin) id hid rfl
    have hpiece : piece.filter (fun id => decide (id ∉ piece)) = [] := by
      simp [List.filter_eq_nil_iff]
    rw [List.filter_append, List.filter_append, hpiece, List.append_nil,
      List.filter_eq_self.mpr (by simpa using hpre), List.filter_eq_self.mpr (by simpa using hpost)]
  obtain ⟨pre, post, pre', post', rfl, rfl, hkept⟩ := h
  rw [outside _ _ _ hbefore, outside _ _ _ hafter, hkept]

end Swaps

theorem bind_eq_ok_iff {ε α β : Type} {x : Except ε α} {f : α → Except ε β} {b : β} :
    (x >>= f) = .ok b ↔ ∃ a, x = .ok a ∧ f a = .ok b := by
  cases x with
  | ok a =>
    constructor
    · intro h
      exact ⟨a, rfl, h⟩
    · rintro ⟨_, ⟨⟩, h⟩
      exact h
  | error e =>
    constructor
    · rintro ⟨⟩
    · rintro ⟨_, ⟨⟩, _⟩

theorem map_eq_ok_iff {ε α β : Type} {x : Except ε α} {f : α → β} {b : β} :
    x.map f = .ok b ↔ ∃ a, x = .ok a ∧ f a = b := by
  cases x <;> simp [Except.map]

theorem orError_eq_ok_iff {α : Type} {e : EditError} {o : Option α} {a : α} :
    orError e o = .ok a ↔ o = some a := by
  cases o <;> simp [orError]

/-- Ids that pass the check are given, are not taken and do not repeat. -/
theorem checkFresh_ok {taken ids : List String} (h : checkFresh taken ids = .ok ()) :
    ids.Nodup ∧ ∀ id ∈ ids, id ≠ "" ∧ id ∉ taken := by
  induction ids generalizing taken with
  | nil => simp
  | cons id rest ih =>
    unfold checkFresh at h
    split at h
    · cases h
    · rename_i hne
      split at h
      · cases h
      · rename_i hfresh
        obtain ⟨hnodup, hrest⟩ := ih h
        refine ⟨List.nodup_cons.mpr ⟨fun hmem => ?_, hnodup⟩, ?_⟩
        · exact (hrest id hmem).2 List.mem_cons_self
        · intro other hmem
          rcases List.mem_cons.mp hmem with rfl | hmem
          · exact ⟨hne, hfresh⟩
          · exact ⟨(hrest other hmem).1,
              fun hin => (hrest other hmem).2 (List.mem_cons_of_mem _ hin)⟩

namespace Siblings

variable {steps steps' rest : List Step} {anchor id : String} {new s : Step}

theorem splices_addAfter? (h : addAfter? anchor new steps = some steps') :
    Splices [] new.ids (Step.idsOf steps) (Step.idsOf steps') := by
  induction steps generalizing steps' with
  | nil => cases h
  | cons s rest ih =>
    unfold addAfter? at h
    split at h
    · cases h
      exact ⟨s.ids, Step.idsOf rest, by simp [Step.idsOf], by simp [Step.idsOf]⟩
    · obtain ⟨more, hmore, rfl⟩ := Option.map_eq_some_iff.mp h
      exact (ih hmore).trans ⟨s.ids, [], by simp [Step.idsOf], by simp [Step.idsOf]⟩

theorem splices_addBefore? (h : addBefore? anchor new steps = some steps') :
    Splices [] new.ids (Step.idsOf steps) (Step.idsOf steps') := by
  induction steps generalizing steps' with
  | nil => cases h
  | cons s rest ih =>
    unfold addBefore? at h
    split at h
    · cases h
      exact ⟨[], Step.idsOf (s :: rest), by simp, by simp [Step.idsOf]⟩
    · obtain ⟨more, hmore, rfl⟩ := Option.map_eq_some_iff.mp h
      exact (ih hmore).trans ⟨s.ids, [], by simp [Step.idsOf], by simp [Step.idsOf]⟩

/-- Taking a step out takes its ids out, where they stand. -/
theorem splices_take? (h : take? id steps = some (s, rest)) :
    find? id steps = some s ∧ Splices s.ids [] (Step.idsOf steps) (Step.idsOf rest) := by
  induction steps generalizing rest with
  | nil => cases h
  | cons t steps ih =>
    unfold take? at h
    split at h
    · rename_i hid
      cases h
      exact ⟨by simp [find?, hid], [], Step.idsOf steps, by simp [Step.idsOf], by simp⟩
    · rename_i hid
      obtain ⟨⟨taken, more⟩, hmore, heq⟩ := Option.map_eq_some_iff.mp h
      cases heq
      obtain ⟨hfind, hsplice⟩ := ih hmore
      refine ⟨by simpa [find?, hid] using hfind, hsplice.trans ⟨t.ids, [], ?_, ?_⟩⟩
      · simp [Step.idsOf]
      · simp [Step.idsOf]

/-- Moving a step keeps all ids. -/
theorem swaps_move? {after : Option String} (h : move? id after steps = some steps') :
    ∃ s, find? id steps = some s ∧
      Swaps s.ids s.ids (Step.idsOf steps) (Step.idsOf steps') := by
  unfold move? at h
  split at h
  · cases h
  · split at h
    · cases h
    · rename_i taken rest htake _
      cases h
      obtain ⟨hfind, hsplice⟩ := splices_take? htake
      exact ⟨taken, hfind,
        hsplice.moves ⟨[], Step.idsOf rest, by simp, by simp [Step.idsOf]⟩⟩
    · rename_i taken rest anchor htake _
      obtain ⟨hfind, hsplice⟩ := splices_take? htake
      exact ⟨taken, hfind, hsplice.moves (splices_addAfter? h)⟩

end Siblings

theorem Step.ids_eq_cons (s : Step) : s.ids = s.id :: s.body.ids := by
  obtain ⟨id, milestone, title, description, due, config, body⟩ := s
  rw [Step.ids]

/-- A patch changes neither a step's id nor what is nested in it. -/
theorem StepPatch.ids_apply {p : StepPatch} {s t : Step} (h : p.apply s = .ok t) :
    t.ids = s.ids := by
  obtain ⟨body, hbody, heq⟩ := bind_eq_ok_iff.mp h
  cases heq
  have hids : body.ids = s.body.ids := by
    unfold StepPatch.applyToBody at hbody
    split at hbody
    · rename_i hs
      cases hbody
      simp [hs, Body.ids]
    · rename_i hs
      split at hbody
      · cases hbody
      · cases hbody
        simp [hs, Body.ids]
    · split at hbody
      · cases hbody
      · split at hbody
        · cases hbody
        · cases hbody
          rfl
  rw [Step.ids_eq_cons, Step.ids_eq_cons s, ← hids]

theorem lookup_map {α κ β : Type} [BEq κ] [LawfulBEq κ] (key : α → κ) (value : α → β)
    (as : List α) (k : κ) :
    (as.map fun a => (key a, value a)).lookup k = (as.find? fun a => key a == k).map value := by
  induction as with
  | nil => rfl
  | cons a rest ih =>
    by_cases h : key a = k
    · simp [h]
    · have hk : (k == key a) = false := beq_eq_false_iff_ne.mpr (Ne.symm h)
      simp [List.lookup_cons, h, hk, ih]

theorem Step.lookup_inner_path {s : Step} {kind : BranchKind} {join : Quorum}
    {paths : List (Path Step)} (hbody : s.body = .branch kind join paths) (id : String) :
    s.inner.lookup ⟨.path, s.id, id⟩ = (paths.find? fun p => p.id == id).map Path.steps := by
  rw [Step.inner, hbody, lookup_map (fun p : Path Step => (⟨.path, s.id, p.id⟩ : Scope))]
  congr 2
  funext p
  simp [BEq.beq]

theorem Step.lookup_inner_outcome {s : Step} {outcomes : List (Outcome Step)}
    (hbody : s.body = .decision outcomes) (id : String) :
    s.inner.lookup ⟨.outcome, s.id, id⟩ =
      (outcomes.find? fun o => o.id == id).map Outcome.steps := by
  rw [Step.inner, hbody, lookup_map (fun o : Outcome Step => (⟨.outcome, s.id, o.id⟩ : Scope))]
  congr 2
  funext o
  simp [BEq.beq]

theorem Path.update_ok {id : String} {change : Path Step → Except EditError (Path Step)}
    {paths paths' : List (Path Step)} (h : Path.update id change paths = .ok paths') :
    ∃ p p', paths.find? (fun p => p.id == id) = some p ∧ change p = .ok p' ∧
      Splices (Step.idsOf p.steps) (Step.idsOf p'.steps) (Path.idsOf paths)
        (Path.idsOf paths') := by
  obtain ⟨p, hp, h⟩ := bind_eq_ok_iff.mp h
  obtain ⟨p', hchange, h⟩ := bind_eq_ok_iff.mp h
  cases h
  have hfind := orError_eq_ok_iff.mp hp
  obtain ⟨before, after, rfl, hmodify⟩ := Sequence.modifyFirst_of_find? hfind fun _ => p'
  rw [hmodify]
  exact ⟨p, p', hfind, hchange, Path.idsOf before, Path.idsOf after, by simp [Path.idsOf_eq], by
    simp [Path.idsOf_eq]⟩

theorem Outcome.update_ok {id : String} {change : Outcome Step → Except EditError (Outcome Step)}
    {outcomes outcomes' : List (Outcome Step)}
    (h : Outcome.update id change outcomes = .ok outcomes') :
    ∃ o o', outcomes.find? (fun o => o.id == id) = some o ∧ change o = .ok o' ∧
      Splices (Step.idsOf o.steps) (Step.idsOf o'.steps) (Outcome.idsOf outcomes)
        (Outcome.idsOf outcomes') := by
  obtain ⟨o, ho, h⟩ := bind_eq_ok_iff.mp h
  obtain ⟨o', hchange, h⟩ := bind_eq_ok_iff.mp h
  cases h
  have hfind := orError_eq_ok_iff.mp ho
  obtain ⟨before, after, rfl, hmodify⟩ := Sequence.modifyFirst_of_find? hfind fun _ => o'
  rw [hmodify]
  exact ⟨o, o', hfind, hchange, Outcome.idsOf before, Outcome.idsOf after, by
    simp [Outcome.idsOf_eq], by simp [Outcome.idsOf_eq]⟩

namespace Flow

variable {f g : Flow}

/-- The steps of a scope: those of the first path or outcome with its id. -/
def stepsIn? (f : Flow) (scope : Scope) : Option (List Step) :=
  (f.find? scope.owner).bind fun p => p.step.inner.lookup scope

/-- The ids of the first step with an id and of all steps nested in it. -/
def idsAt (f : Flow) (id : String) : List String :=
  (f.find? id).elim [] fun p => p.step.ids

def idsIn (f : Flow) (scope : Scope) : List String :=
  (f.stepsIn? scope).elim [] Step.idsOf

/-- Every step of a list stands somewhere in the flow. -/
def Lists (f : Flow) (steps : List Step) : Prop :=
  ∀ s ∈ steps, ∃ p, f.Has p ∧ p.step = s

theorem has_of_find? {id : String} {p : Place} (h : f.find? id = some p) : f.Has p ∧ p.id = id :=
  ⟨mem_places_iff.mp (List.mem_of_find?_eq_some h), by simpa using List.find?_some h⟩

theorem lists_main (f : Flow) : f.Lists f.steps := by
  intro s hs
  obtain ⟨k, hk⟩ := List.mem_iff_getElem?.mp hs
  exact ⟨_, .main hk, rfl⟩

theorem Has.lists {p : Place} (hp : f.Has p) {scope : Scope} {steps : List Step}
    (hi : (scope, steps) ∈ p.step.inner) : f.Lists steps := by
  intro s hs
  obtain ⟨k, hk⟩ := List.mem_iff_getElem?.mp hs
  exact ⟨_, .inner hp hi hk, rfl⟩

theorem Lists.idsAt_eq {steps : List Step} (h : f.Lists steps) (unique : f.ids.Nodup) {id : String}
    {s : Step} (hs : Siblings.find? id steps = some s) : f.idsAt id = s.ids := by
  obtain ⟨p, hp, rfl⟩ := h s (List.mem_of_find?_eq_some hs)
  have hid : p.id = id := by simpa [Place.id] using List.find?_some hs
  rw [idsAt, (find?_eq_some_iff unique).mpr ⟨hp, hid⟩, Option.elim_some]

theorem idsIn_path {branch id : String} {p : Place} {kind : BranchKind} {join : Quorum}
    {paths : List (Path Step)} {path : Path Step} (h : f.find? branch = some p)
    (hbody : p.step.body = .branch kind join paths)
    (hpath : paths.find? (fun p => p.id == id) = some path) :
    f.idsIn ⟨.path, branch, id⟩ = Step.idsOf path.steps := by
  obtain ⟨_, rfl⟩ := has_of_find? h
  rw [idsIn, stepsIn?, h, Option.bind_some, Place.id, Step.lookup_inner_path hbody, hpath]
  rfl

theorem idsIn_outcome {decision id : String} {p : Place} {outcomes : List (Outcome Step)}
    {outcome : Outcome Step} (h : f.find? decision = some p)
    (hbody : p.step.body = .decision outcomes)
    (houtcome : outcomes.find? (fun o => o.id == id) = some outcome) :
    f.idsIn ⟨.outcome, decision, id⟩ = Step.idsOf outcome.steps := by
  obtain ⟨_, rfl⟩ := has_of_find? h
  rw [idsIn, stepsIn?, h, Option.bind_some, Place.id, Step.lookup_inner_outcome hbody, houtcome]
  rfl

theorem updateStep_ok {id : String} {change : Step → Except EditError Step}
    (h : f.updateStep id change = .ok g) :
    ∃ p s, f.find? id = some p ∧ change p.step = .ok s ∧
      Splices p.step.ids s.ids f.ids g.ids := by
  obtain ⟨p, hp, h⟩ := bind_eq_ok_iff.mp h
  obtain ⟨s, hchange, h⟩ := bind_eq_ok_iff.mp h
  cases h
  have hfind := orError_eq_ok_iff.mp hp
  exact ⟨p, s, hfind, hchange, ids_replaceStep hfind s⟩

/-- A change of the paths of a branch changes the ids of the flow where those of the paths stand. -/
theorem updateBranch_ok {id : String}
    {change : List (Path Step) → Except EditError (List (Path Step))}
    (h : f.updateBranch id change = .ok g) :
    ∃ p kind join paths paths', f.find? id = some p ∧ p.step.body = .branch kind join paths ∧
      change paths = .ok paths' ∧ Splices (Path.idsOf paths) (Path.idsOf paths') f.ids g.ids := by
  unfold updateBranch at h
  split at h
  · rename_i p hfind
    split at h
    · rename_i kind join paths hbody
      obtain ⟨paths', hchange, h⟩ := bind_eq_ok_iff.mp h
      cases h
      refine ⟨p, kind, join, paths, paths', hfind, hbody, hchange, ?_⟩
      refine Splices.trans ?_ (ids_replaceStep hfind _)
      rw [Step.ids_eq_cons p.step, hbody, Step.ids_eq_cons, Body.ids, Body.ids]
      exact (Splices.self _ _).cons _
    · cases h
  · cases h

/-- A change of the outcomes of a decision likewise. -/
theorem updateDecision_ok {id : String}
    {change : List (Outcome Step) → Except EditError (List (Outcome Step))}
    (h : f.updateDecision id change = .ok g) :
    ∃ p outcomes outcomes', f.find? id = some p ∧ p.step.body = .decision outcomes ∧
      change outcomes = .ok outcomes' ∧
      Splices (Outcome.idsOf outcomes) (Outcome.idsOf outcomes') f.ids g.ids := by
  unfold updateDecision at h
  split at h
  · rename_i p hfind
    split at h
    · rename_i outcomes hbody
      obtain ⟨outcomes', hchange, h⟩ := bind_eq_ok_iff.mp h
      cases h
      refine ⟨p, outcomes, outcomes', hfind, hbody, hchange, ?_⟩
      refine Splices.trans ?_ (ids_replaceStep hfind _)
      rw [Step.ids_eq_cons p.step, hbody, Step.ids_eq_cons, Body.ids, Body.ids]
      exact (Splices.self _ _).cons _
    · cases h
  · cases h

/-- The steps that a target names stand in the flow, and their change is all that changes. -/
theorem updateTarget_ok {target : Target} {change : List Step → Except EditError (List Step)}
    (h : f.updateTarget target change = .ok g) :
    ∃ steps steps', f.Lists steps ∧ change steps = .ok steps' ∧
      Splices (Step.idsOf steps) (Step.idsOf steps') f.ids g.ids := by
  cases target with
  | mainPath =>
    obtain ⟨steps', hchange, h⟩ := bind_eq_ok_iff.mp h
    cases h
    exact ⟨f.steps, steps', f.lists_main, hchange, .self _ _⟩
  | path branch id =>
    obtain ⟨p, kind, join, paths, paths', hfind, hbody, hchange, haround⟩ := updateBranch_ok h
    obtain ⟨path, path', hpath, hupdate, hsplice⟩ := Path.update_ok hchange
    obtain ⟨steps', hsteps, heq⟩ := bind_eq_ok_iff.mp hupdate
    cases heq
    have hi : (⟨.path, p.step.id, path.id⟩, path.steps) ∈ p.step.inner := by
      rw [Step.inner, hbody]
      exact List.mem_map_of_mem (f := fun p : Path Step => (_, p.steps))
        (List.mem_of_find?_eq_some hpath)
    exact ⟨path.steps, steps', (has_of_find? hfind).1.lists hi, hsteps, hsplice.trans haround⟩
  | outcome decision id =>
    obtain ⟨p, outcomes, outcomes', hfind, hbody, hchange, haround⟩ := updateDecision_ok h
    obtain ⟨o, o', ho, hupdate, hsplice⟩ := Outcome.update_ok hchange
    obtain ⟨steps', hsteps, heq⟩ := bind_eq_ok_iff.mp hupdate
    cases heq
    have hi : (⟨.outcome, p.step.id, o.id⟩, o.steps) ∈ p.step.inner := by
      rw [Step.inner, hbody]
      exact List.mem_map_of_mem (f := fun o : Outcome Step => (_, o.steps))
        (List.mem_of_find?_eq_some ho)
    exact ⟨o.steps, steps', (has_of_find? hfind).1.lists hi, hsteps, hsplice.trans haround⟩

theorem addPath_ok {branch : String} {path : Path Step} (h : f.addPath branch path = .ok g) :
    checkFresh f.ids (Step.idsOf path.steps) = .ok () ∧
      Splices [] (Step.idsOf path.steps) f.ids g.ids := by
  obtain ⟨p, kind, join, paths, paths', hfind, hbody, hchange, haround⟩ := updateBranch_ok h
  split at hchange
  · cases hchange
  · split at hchange
    · cases hchange
    · obtain ⟨_, hfresh, heq⟩ := bind_eq_ok_iff.mp hchange
      cases heq
      refine ⟨hfresh, Splices.trans ⟨Path.idsOf paths, [], by simp, ?_⟩ haround⟩
      simp [Path.idsOf_eq]

theorem addOutcome_ok {decision : String} {outcome : Outcome Step}
    (h : f.addOutcome decision outcome = .ok g) :
    checkFresh f.ids (Step.idsOf outcome.steps) = .ok () ∧
      Splices [] (Step.idsOf outcome.steps) f.ids g.ids := by
  obtain ⟨p, outcomes, outcomes', hfind, hbody, hchange, haround⟩ := updateDecision_ok h
  split at hchange
  · cases hchange
  · split at hchange
    · cases hchange
    · obtain ⟨_, hfresh, heq⟩ := bind_eq_ok_iff.mp hchange
      cases heq
      refine ⟨hfresh, Splices.trans ⟨Outcome.idsOf outcomes, [], by simp, ?_⟩ haround⟩
      simp [Outcome.idsOf_eq]

theorem removePath_ok {branch id : String} (h : f.removePath branch id = .ok g) :
    Splices (f.idsIn ⟨.path, branch, id⟩) [] f.ids g.ids := by
  obtain ⟨p, kind, join, paths, paths', hfind, hbody, hchange, haround⟩ := updateBranch_ok h
  split at hchange
  · rename_i hany
    cases hchange
    obtain ⟨path, hpath⟩ := Option.isSome_iff_exists.mp (List.isSome_find?.trans hany)
    obtain ⟨before, after, hpaths, hdrop⟩ := Sequence.dropFirst_of_find? hpath
    rw [idsIn_path hfind hbody hpath]
    refine Splices.trans ⟨Path.idsOf before, Path.idsOf after, ?_, ?_⟩ haround
    · simp [hpaths, Path.idsOf_eq]
    · simp [hdrop, Path.idsOf_eq]
  · cases hchange

theorem removeOutcome_ok {decision id : String} (h : f.removeOutcome decision id = .ok g) :
    Splices (f.idsIn ⟨.outcome, decision, id⟩) [] f.ids g.ids := by
  obtain ⟨p, outcomes, outcomes', hfind, hbody, hchange, haround⟩ := updateDecision_ok h
  split at hchange
  · rename_i hany
    cases hchange
    obtain ⟨outcome, houtcome⟩ := Option.isSome_iff_exists.mp (List.isSome_find?.trans hany)
    obtain ⟨before, after, houtcomes, hdrop⟩ := Sequence.dropFirst_of_find? houtcome
    rw [idsIn_outcome hfind hbody houtcome]
    refine Splices.trans ⟨Outcome.idsOf before, Outcome.idsOf after, ?_, ?_⟩ haround
    · simp [houtcomes, Outcome.idsOf_eq]
    · simp [hdrop, Outcome.idsOf_eq]
  · cases hchange

end Flow

/-- The ids of the step that an edit of a list brings. -/
def ListEdit.added : ListEdit → List String
  | .addAfter _ step | .addBefore _ step => step.ids
  | .remove _ | .update _ _ | .move _ _ => []

def Edit.added : Edit → List String
  | .steps _ edit => edit.added
  | .addPath _ path => Step.idsOf path.steps
  | .addOutcome _ outcome => Step.idsOf outcome.steps
  | _ => []

/-- The ids of all steps that an edit takes out of a flow. -/
def Edit.removed (f : Flow) : Edit → List String
  | .steps _ (.remove id) => f.idsAt id
  | .removePath branch id => f.idsIn ⟨.path, branch, id⟩
  | .removeOutcome decision id => f.idsIn ⟨.outcome, decision, id⟩
  | _ => []

/-- The ids of all steps that an edit puts in another position. -/
def Edit.moved (f : Flow) : Edit → List String
  | .steps _ (.move id _) => f.idsAt id
  | _ => []

/-- Each edit of a list takes some ids out, brings some in and leaves the others in their order. -/
theorem ListEdit.swaps {f : Flow} (unique : f.ids.Nodup) {target : Target} {taken : List String}
    {steps steps' : List Step} (hlists : f.Lists steps) {edit : ListEdit}
    (h : edit.apply target taken steps = .ok steps') :
    Swaps ((Edit.steps target edit).removed f ++ (Edit.steps target edit).moved f)
      (edit.added ++ (Edit.steps target edit).moved f) (Step.idsOf steps) (Step.idsOf steps') := by
  cases edit with
  | addAfter anchor step =>
    obtain ⟨_, _, h⟩ := bind_eq_ok_iff.mp h
    simp only [Edit.removed, Edit.moved, ListEdit.added, List.append_nil]
    cases anchor with
    | none =>
      cases h
      exact Splices.swaps ⟨[], Step.idsOf steps, by simp, by simp [Step.idsOf]⟩
    | some anchor => exact (Siblings.splices_addAfter? (orError_eq_ok_iff.mp h)).swaps
  | addBefore anchor step =>
    obtain ⟨_, _, h⟩ := bind_eq_ok_iff.mp h
    simp only [Edit.removed, Edit.moved, ListEdit.added, List.append_nil]
    exact (Siblings.splices_addBefore? (orError_eq_ok_iff.mp h)).swaps
  | remove id =>
    obtain ⟨⟨s, rest⟩, htake, rfl⟩ := map_eq_ok_iff.mp h
    obtain ⟨hfind, hsplice⟩ := Siblings.splices_take? (orError_eq_ok_iff.mp htake)
    simp only [Edit.removed, Edit.moved, ListEdit.added, List.append_nil,
      hlists.idsAt_eq unique hfind]
    exact hsplice.swaps
  | update id patch =>
    obtain ⟨s, hfind, h⟩ := bind_eq_ok_iff.mp h
    obtain ⟨t, hpatch, h⟩ := bind_eq_ok_iff.mp h
    cases h
    obtain ⟨before, after, hsteps, hmodify⟩ :=
      Sequence.modifyFirst_of_find? (orError_eq_ok_iff.mp hfind) fun _ => t
    have hids : Step.idsOf (before ++ t :: after) = Step.idsOf (before ++ s :: after) := by
      simp [Step.idsOf_eq, StepPatch.ids_apply hpatch]
    exact .of_eq (by rw [hmodify, hids, hsteps])
  | move id after =>
    obtain ⟨_, _, h⟩ := bind_eq_ok_iff.mp h
    obtain ⟨s, hfind, hswaps⟩ := Siblings.swaps_move? (orError_eq_ok_iff.mp h)
    simp only [Edit.removed, Edit.moved, ListEdit.added, List.nil_append,
      hlists.idsAt_eq unique hfind]
    exact hswaps

theorem ListEdit.added_fresh {target : Target} {taken : List String} {steps steps' : List Step}
    {edit : ListEdit} (h : edit.apply target taken steps = .ok steps') :
    edit.added.Nodup ∧ ∀ id ∈ edit.added, id ≠ "" ∧ id ∉ taken := by
  cases edit with
  | addAfter _ _ =>
    obtain ⟨_, hfresh, _⟩ := bind_eq_ok_iff.mp h
    exact checkFresh_ok hfresh
  | addBefore _ _ =>
    obtain ⟨_, hfresh, _⟩ := bind_eq_ok_iff.mp h
    exact checkFresh_ok hfresh
  | remove _ => simp [ListEdit.added]
  | update _ _ => simp [ListEdit.added]
  | move _ _ => simp [ListEdit.added]

namespace Edit

variable {f g : Flow} {e : Edit}

/-- Only an update on the main path is not an edit of the list that a target names. -/
theorem apply_steps {target : Target} {edit : ListEdit} (h : (steps target edit).apply f = .ok g) :
    (∃ id patch, edit = .update id patch ∧ f.updateStep id patch.apply = .ok g) ∨
      f.updateTarget target (fun steps => edit.apply target f.ids steps) = .ok g := by
  unfold apply at h
  split at h <;> rename_i heq
  all_goals cases heq
  · exact .inl ⟨_, _, rfl, h⟩
  · exact .inr h

theorem swaps_of_updateStep {id : String} {change : Step → Except EditError Step}
    (hkeeps : ∀ {s t}, change s = .ok t → t.ids = s.ids) (h : f.updateStep id change = .ok g) :
    Swaps [] [] f.ids g.ids := by
  obtain ⟨p, s, _, hchange, pre, post, hf, hg⟩ := Flow.updateStep_ok h
  exact .of_eq (by rw [hf, hg, hkeeps hchange])

/-- An edit takes one piece out of the ids of a flow and puts one in. -/
theorem swaps (unique : f.ids.Nodup) (h : e.apply f = .ok g) :
    Swaps (e.removed f ++ e.moved f) (e.added ++ e.moved f) f.ids g.ids := by
  cases e with
  | steps target edit =>
    rcases apply_steps h with ⟨id, patch, rfl, hupdate⟩ | h
    · exact swaps_of_updateStep StepPatch.ids_apply hupdate
    · obtain ⟨steps, steps', hlists, hchange, haround⟩ := Flow.updateTarget_ok h
      exact (ListEdit.swaps unique hlists hchange).within haround
  | addPath branch path =>
    simpa [removed, moved, added] using (Flow.addPath_ok h).2.swaps
  | removePath branch id =>
    simpa [removed, moved, added] using (Flow.removePath_ok h).swaps
  | setGuard branch id guard =>
    obtain ⟨_, _, _, _, _, _, _, hchange, around⟩ := Flow.updateBranch_ok h
    obtain ⟨_, _, _, heq, hsplice⟩ := Path.update_ok hchange
    cases heq
    obtain ⟨pre, post, hf, hg⟩ := hsplice.trans around
    exact .of_eq (hg.trans hf.symm)
  | addOutcome decision outcome =>
    simpa [removed, moved, added] using (Flow.addOutcome_ok h).2.swaps
  | removeOutcome decision id =>
    simpa [removed, moved, added] using (Flow.removeOutcome_ok h).swaps
  | setOutcomeLabel decision id label =>
    obtain ⟨_, _, _, _, _, hchange, around⟩ := Flow.updateDecision_ok h
    obtain ⟨_, _, _, heq, hsplice⟩ := Outcome.update_ok hchange
    cases heq
    obtain ⟨pre, post, hf, hg⟩ := hsplice.trans around
    exact .of_eq (hg.trans hf.symm)
  | setTerminateStatus id status =>
    rw [apply] at h
    refine swaps_of_updateStep ?_ h
    intro s t hchange
    split at hchange
    · rename_i hbody
      cases hchange
      rw [Step.ids_eq_cons s, Step.ids_eq_cons, hbody, Body.ids, Body.ids]
    · cases hchange
  | setGotoTarget id target =>
    rw [apply] at h
    refine swaps_of_updateStep ?_ h
    intro s t hchange
    split at hchange
    · rename_i hbody
      cases hchange
      rw [Step.ids_eq_cons s, Step.ids_eq_cons, hbody, Body.ids, Body.ids]
    · cases hchange
  | addMilestone m =>
    refine .of_eq ?_
    simp only [apply, Flow.addMilestone] at h
    split at h
    · cases h
    · split at h <;> cases h
      rfl
  | removeMilestone id =>
    refine .of_eq ?_
    simp only [apply, Flow.removeMilestone] at h
    split at h
    · cases h
    · split at h <;> cases h
      rfl
  | updateMilestone id patch =>
    refine .of_eq ?_
    simp only [apply, Flow.updateMilestone] at h
    split at h <;> cases h
    rfl
  | rename name =>
    cases h
    exact .of_eq rfl

/-- What an edit brings has ids that the flow does not have. -/
theorem added_fresh (h : e.apply f = .ok g) :
    e.added.Nodup ∧ ∀ id ∈ e.added, id ≠ "" ∧ id ∉ f.ids := by
  cases e with
  | steps target edit =>
    rcases apply_steps h with ⟨id, patch, rfl, _⟩ | h
    · simp [added, ListEdit.added]
    · obtain ⟨steps, steps', _, hchange, _⟩ := Flow.updateTarget_ok h
      exact ListEdit.added_fresh hchange
  | addPath branch path => exact checkFresh_ok (Flow.addPath_ok h).1
  | addOutcome decision outcome => exact checkFresh_ok (Flow.addOutcome_ok h).1
  | _ => simp [added]

theorem perm (unique : f.ids.Nodup) (h : e.apply f = .ok g) :
    (g.ids ++ e.removed f).Perm (f.ids ++ e.added) := by
  have hperm := (swaps unique h).perm
  rw [← List.append_assoc, ← List.append_assoc] at hperm
  exact (List.perm_append_right_iff _).mp hperm

theorem nodup (unique : f.ids.Nodup) (h : e.apply f = .ok g) : g.ids.Nodup := by
  obtain ⟨hnodup, hfresh⟩ := added_fresh h
  have hboth : (f.ids ++ e.added).Nodup := by
    refine List.nodup_append.mpr ⟨unique, hnodup, ?_⟩
    rintro id hf _ hadded rfl
    exact (hfresh id hadded).2 hf
  exact (List.nodup_append.mp ((perm unique h).nodup_iff.mpr hboth)).1

theorem nonempty (unique : f.ids.Nodup) (h : e.apply f = .ok g) (hf : "" ∉ f.ids) :
    "" ∉ g.ids := by
  intro hg
  rcases List.mem_append.mp ((perm unique h).mem_iff.mp (List.mem_append_left _ hg)) with hin | hin
  · exact hf hin
  · exact ((added_fresh h).2 "" hin).1 rfl

theorem filter_ids (unique : f.ids.Nodup) (h : e.apply f = .ok g) :
    g.ids.filter (fun id => decide (id ∉ e.added ++ e.moved f)) =
      f.ids.filter fun id => decide (id ∉ e.removed f ++ e.moved f) :=
  (swaps unique h).filter_eq unique (nodup unique h)

/-- A batch that goes through keeps ids unique and given. -/
theorem applyFrom_ids {index : Nat} {edits : List Edit} (unique : f.ids.Nodup)
    (h : (applyFrom index f edits).flow = some g) :
    g.ids.Nodup ∧ ("" ∉ f.ids → "" ∉ g.ids) := by
  induction edits generalizing f index with
  | nil =>
    cases h
    exact ⟨unique, id⟩
  | cons e rest ih =>
    unfold applyFrom at h
    split at h
    · cases h
    · rename_i f' hedit
      obtain ⟨hnodup, hgiven⟩ := ih (nodup unique hedit) h
      exact ⟨hnodup, fun hf => hgiven (nonempty unique hedit hf)⟩

end Edit

namespace Sample

def forked (left : List String) : Flow :=
  { Flow.empty "sample" "" with
    steps := [⟨"fork", "", "", "", none, [], .branch .parallel .all
      [⟨"left", "", {}, left.map fun id => Step.ofType id .form⟩]⟩] }

def grow : Edit :=
  .steps (.path "fork" "left") (.addAfter (some "a") (Step.ofType "new" .form))

def turn : Edit :=
  .steps (.path "fork" "left") (.move "a" (some "b"))

end Sample

namespace Flow

/-- Edits lose no step: what an edit brings comes to the ids, what it removes goes, and the others
stay, in their order unless they are moved. Ids never come to repeat or to be empty. -/
theorem edited_ids {f : Flow} (unique : f.ids.Nodup) :
    (∀ (edits : List Edit) (g : Flow), (f.applyAll edits).flow = some g →
      g.ids.Nodup ∧ ("" ∉ f.ids → "" ∉ g.ids)) ∧
    ∀ (e : Edit) (g : Flow), e.apply f = .ok g →
      (g.ids ++ e.removed f).Perm (f.ids ++ e.added) ∧
        g.ids.filter (fun id => decide (id ∉ e.added ++ e.moved f)) =
          f.ids.filter (fun id => decide (id ∉ e.removed f ++ e.moved f)) ∧
        g.ids.Nodup ∧ ("" ∉ f.ids → "" ∉ g.ids) := by
  refine ⟨fun edits g h => Edit.applyFrom_ids unique h, fun e g h => ?_⟩
  exact ⟨Edit.perm unique h, Edit.filter_ids unique h, Edit.nodup unique h,
    Edit.nonempty unique h⟩

theorem edited_ids_forked :
    (Sample.forked ["new", "b", "a"]).ids.Nodup ∧ "" ∉ (Sample.forked ["new", "b", "a"]).ids ∧
      (Sample.forked ["b", "a"]).ids.Perm (Sample.forked ["a", "b"]).ids := by
  obtain ⟨hbatch, hsingle⟩ := edited_ids (f := Sample.forked ["a", "b"]) (by decide)
  obtain ⟨hnodup, hgiven⟩ :=
    hbatch [Sample.grow, Sample.turn] (Sample.forked ["new", "b", "a"]) rfl
  have hperm := (hsingle Sample.turn (Sample.forked ["b", "a"]) rfl).1
  exact ⟨hnodup, hgiven (by decide), by simpa [Edit.removed, Edit.added, Sample.turn,
    ListEdit.added] using hperm⟩

end Flow

end Workflow
