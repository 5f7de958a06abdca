import Workflow.Findings
import Workflow.Proofs.Tree

namespace Workflow

/-- The steps of a list and the steps nested in them, each with the step that owns the list it
stands in and with the number of scopes around it. The list itself belongs to `owner`, at
`depth`. -/
inductive Step.Holds :
    List Step → Option Step → Nat → Option Step → Nat → Step → Prop where
  | here {steps : List Step} {owner : Option Step} {depth : Nat} {s : Step} (hs : s ∈ steps) :
      Holds steps owner depth owner depth s
  | inner {steps : List Step} {owner around : Option Step} {depth d : Nat} {s t : Step}
      {i : Scope × List Step} (hs : s ∈ steps) (hi : i ∈ s.inner)
      (ht : Holds i.2 (some s) (depth + 1) around d t) : Holds steps owner depth around d t

/-- The steps of a flow, each with its owner and its depth. -/
def Flow.Holds (f : Flow) : Option Step → Nat → Step → Prop :=
  Step.Holds f.steps none 0

def Identified (ids : List String) : Prop :=
  "" ∉ ids ∧ ids.Nodup

/-- A guard has few enough clauses, and the fallback clause only alone. -/
def Guard.Fits (limits : Constraints) (g : Guard) : Prop :=
  g.clauses.length ≤ limits.maxClauses.toNat ∧
    ∀ c ∈ g.clauses, c.comparison = .otherwise → g.clauses = [c]

namespace Flow

variable (f : Flow) (limits : Constraints)

/-- The rules for one step that stands `depth` scopes deep, directly inside of `owner`. -/
structure Admits (owner : Option Step) (depth : Nat) (s : Step) : Prop where
  milestone : owner = none → s.type ≠ .goto →
    s.milestone ≠ "" ∧ ∃ m ∈ f.milestones, m.id = s.milestone
  scopes : ∀ i ∈ s.inner, depth + 1 ≤ limits.maxDepth.toNat
  goto : ∀ target, s.body = .goto target →
    (∃ o, owner = some o ∧ o.type ∈ limits.gotoInside) ∧
      ∃ t ∈ f.steps, t.id = target ∧ t.type = .gotoDestination
  terminate : ∀ status, s.body = .terminate status →
    ∃ o, owner = some o ∧ o.type ∈ limits.terminateInside
  branch : ∀ kind join paths, s.body = .branch kind join paths →
    2 ≤ paths.length ∧ paths.length ≤ limits.maxPaths.toNat ∧
      Identified (paths.map Path.id) ∧
      ∀ p ∈ paths, p.guard.Fits limits
  decision : ∀ outcomes, s.body = .decision outcomes →
    2 ≤ outcomes.length ∧ outcomes.length ≤ limits.maxOutcomes.toNat ∧
      Identified (outcomes.map Outcome.id)

structure KeepsRules : Prop where
  ids : Identified f.ids
  milestones : (f.milestones.map Milestone.id).Nodup
  steps : ∀ owner depth s, f.Holds owner depth s → f.Admits limits owner depth s

end Flow

def Mild (ps : List Problem) : Prop :=
  ∀ p ∈ ps, p.severity ≠ .error

def Clean (xs : List Finding) : Prop :=
  Mild (xs.map Finding.problem)

@[simp] theorem mild_nil : Mild [] :=
  List.forall_mem_nil _

@[simp] theorem mild_singleton {p : Problem} : Mild [p] ↔ p.severity ≠ .error :=
  List.forall_mem_singleton

@[simp] theorem mild_append {ps qs : List Problem} : Mild (ps ++ qs) ↔ Mild ps ∧ Mild qs :=
  List.forall_mem_append

@[simp] theorem mild_found {c : Prop} [Decidable c] {p : Problem} :
    Mild (found c p) ↔ (c → p.severity ≠ .error) := by
  unfold found
  split <;> simp [*]

@[simp] theorem clean_nil : Clean [] :=
  mild_nil

@[simp] theorem clean_append {xs ys : List Finding} :
    Clean (xs ++ ys) ↔ Clean xs ∧ Clean ys := by
  simp [Clean]

/-- Where something is found does not matter. -/
@[simp] theorem clean_map {site : Site} {ps : List Problem} :
    Clean (ps.map (⟨site, ·⟩)) ↔ Mild ps := by
  simp [Clean, Function.comp_def]

theorem Flow.isSound_iff_clean {limits : Constraints} {f : Flow} :
    f.isSound limits = true ↔ Clean (f.findings limits) := by
  simp [isSound, errors, Clean, Mild]

def Fresh (seen ids : List String) : Prop :=
  ids.Nodup ∧ ∀ id ∈ ids, id ≠ "" ∧ id ∉ seen

@[simp] theorem fresh_nil (seen : List String) : Fresh seen [] := by
  simp [Fresh]

theorem fresh_append {seen ids more : List String} :
    Fresh seen (ids ++ more) ↔ Fresh seen ids ∧ Fresh (ids ++ seen) more := by
  simp only [Fresh, List.nodup_append, List.mem_append, not_or]
  constructor
  · rintro ⟨⟨hids, hmore, hdiffer⟩, hall⟩
    refine ⟨⟨hids, fun id hid => hall id (.inl hid)⟩, hmore, fun id hid => ?_⟩
    obtain ⟨hne, hseen⟩ := hall id (.inr hid)
    exact ⟨hne, fun h => hdiffer id h id hid rfl, hseen⟩
  · rintro ⟨⟨hids, hseen⟩, hmore, hall⟩
    refine ⟨⟨hids, hmore, ?_⟩, ?_⟩
    · rintro a ha b hb rfl
      exact (hall a hb).2.1 ha
    · rintro id (hid | hid)
      · exact hseen id hid
      · exact ⟨(hall id hid).1, (hall id hid).2.2⟩

theorem fresh_cons {seen ids : List String} {id : String} :
    Fresh seen (id :: ids) ↔ (id ≠ "" ∧ id ∉ seen) ∧ Fresh (id :: seen) ids := by
  rw [← List.singleton_append, fresh_append]
  simp [Fresh]

theorem fresh_nil_iff {ids : List String} : Fresh [] ids ↔ Identified ids := by
  simp only [Fresh, Identified, List.not_mem_nil, not_false_eq_true, and_true]
  constructor
  · rintro ⟨hnodup, hne⟩
    exact ⟨fun h => hne _ h rfl, hnodup⟩
  · rintro ⟨hnone, hnodup⟩
    exact ⟨hnodup, fun id hid he => hnone (he ▸ hid)⟩

/-- Nothing is found on milestones just when their ids differ. -/
theorem Milestone.clean_findings {index : Nat} {seen : List String} {ms : List Milestone} :
    Clean (Milestone.findings index seen ms) ↔
      (ms.map Milestone.id).Nodup ∧ ∀ m ∈ ms, m.id ∉ seen := by
  induction ms generalizing index seen with
  | nil => simp [Milestone.findings]
  | cons m rest ih =>
    have hm : Mild (found (m.id ∈ seen) (.repeatedMilestone m.id)) ↔ m.id ∉ seen := by
      simp [Problem.severity]
    simp only [Milestone.findings, clean_append, clean_map, hm, ih, List.map_cons,
      List.nodup_cons, List.mem_map, List.mem_cons, not_or]
    constructor
    · rintro ⟨hm, hnodup, hrest⟩
      refine ⟨⟨?_, hnodup⟩, ?_⟩
      · rintro ⟨n, hn, he⟩
        exact (hrest n hn).1 he
      · rintro n (rfl | hn)
        · exact hm
        · exact (hrest n hn).2
    · rintro ⟨⟨hm, hnodup⟩, hall⟩
      exact ⟨hall m (.inl rfl), hnodup,
        fun n hn => ⟨fun he => hm ⟨n, hn, he⟩, hall n (.inr hn)⟩⟩

namespace Inspection

variable {k : Inspection} {owner : Option Step} {site : Site} {seen : List String} {s : Step}

theorem mild_id : Mild (idProblems seen s) ↔ s.id ≠ "" ∧ s.id ∉ seen := by
  unfold idProblems
  split <;> simp [*, Problem.severity]

theorem mild_milestone : Mild (k.milestoneProblems owner s) ↔
    (owner = none → s.type ≠ .goto →
      s.milestone ≠ "" ∧ ∃ m ∈ k.flow.milestones, m.id = s.milestone) := by
  unfold milestoneProblems
  cases owner with
  | some o => simp [Problem.severity]
  | none =>
    by_cases hgoto : s.type = .goto
    · simp [hgoto]
    · by_cases hnone : s.milestone = ""
      · simp [hgoto, hnone, Problem.severity]
      · simp [hgoto, hnone, Problem.severity]

theorem isInside_iff {types : List StepType} :
    isInside owner types = true ↔ ∃ o, owner = some o ∧ o.type ∈ types := by
  cases owner <;> simp [isInside]

/-- A target is the first step with its id. When ids identify, no other step has that id. -/
theorem mild_target (ids : Identified k.flow.ids) {target : String} :
    Mild (k.targetProblems target) ↔
      ∃ t ∈ k.flow.steps, t.id = target ∧ t.type = .gotoDestination := by
  obtain ⟨given, unique⟩ := ids
  unfold targetProblems
  split
  · rename_i hnone
    simp only [mild_singleton, Problem.severity, ne_eq, not_true_eq_false, false_iff]
    rintro ⟨t, ht, hid, _⟩
    obtain ⟨j, hj⟩ := List.mem_iff_getElem?.mp ht
    have hmem := (Flow.Has.main hj).ids_sublist.subset (Step.ids_eq t ▸ List.mem_cons_self)
    exact given (hnone ▸ hid ▸ hmem)
  · split
    · rename_i hf
      simp only [mild_singleton, Problem.severity, ne_eq, not_true_eq_false, false_iff]
      rintro ⟨t, ht, rfl, _⟩
      obtain ⟨j, hj⟩ := List.mem_iff_getElem?.mp ht
      rw [show k.flow.find? t.id = some _ from (Flow.Has.main hj).find? unique] at hf
      cases hf
    · rename_i place hf
      obtain ⟨hp, hid⟩ := (Flow.find?_eq_some_iff unique).mp hf
      simp only [mild_found, Problem.severity, ne_eq, not_true_eq_false, imp_false, not_not,
        Place.onMainPath, List.isEmpty_iff]
      constructor
      · rintro ⟨hmain, htype⟩
        cases hp with
        | main hs => exact ⟨_, List.mem_of_getElem? hs, hid, htype⟩
        | inner _ _ _ => simp at hmain
      · rintro ⟨t, ht, rfl, htype⟩
        obtain ⟨j, hj⟩ := List.mem_iff_getElem?.mp ht
        rw [hp.eq_of_id unique (Flow.Has.main hj) hid]
        exact ⟨rfl, htype⟩

theorem mild_placement (ids : Identified k.flow.ids) : Mild (k.placementProblems owner s) ↔
    (∀ target, s.body = .goto target →
      (∃ o, owner = some o ∧ o.type ∈ k.limits.gotoInside) ∧
        ∃ t ∈ k.flow.steps, t.id = target ∧ t.type = .gotoDestination) ∧
    ∀ status, s.body = .terminate status →
      ∃ o, owner = some o ∧ o.type ∈ k.limits.terminateInside := by
  unfold placementProblems
  cases s.body with
  | goto target => simp [mild_target ids, isInside_iff, Problem.severity]
  | terminate status => simp [isInside_iff, Problem.severity]
  | action _ _ _ | subFlow _ _ | branch _ _ _ | decision _ | gotoDestination _ => simp

/-- Nothing graver than a warning is found on a guard just when it fits. -/
theorem mild_guard {kind : BranchKind} {path : String} {g : Guard} :
    Mild (k.guardProblems kind path g) ↔ g.Fits k.limits := by
  have halone : (∀ c ∈ g.clauses, c.comparison = .otherwise → g.clauses = [c]) ↔
      ¬ ((∃ c ∈ g.clauses, c.comparison = .otherwise) ∧ 1 < g.clauses.length) := by
    constructor
    · rintro h ⟨⟨c, hc, ho⟩, hlt⟩
      simp [h c hc ho] at hlt
    · intro h c hc ho
      obtain ⟨b, hb⟩ : ∃ b, g.clauses = [b] := by
        rw [← List.length_eq_one_iff]
        have hpos := List.length_pos_of_mem hc
        have hle : ¬ 1 < g.clauses.length := fun hlt => h ⟨⟨c, hc, ho⟩, hlt⟩
        omega
      simp_all
  unfold guardProblems Guard.Fits
  simp only [halone, mild_append, mild_found, Problem.severity, List.any_eq_true, beq_iff_eq]
  simp

theorem clean_paths {step : String} {kind : BranchKind} {index : Nat} {paths : List (Path Step)} :
    Clean (k.pathFindings site step kind index seen paths) ↔
      Fresh seen (paths.map Path.id) ∧ ∀ p ∈ paths, p.guard.Fits k.limits := by
  induction paths generalizing index seen with
  | nil => simp [pathFindings]
  | cons p rest ih =>
    simp only [pathFindings, clean_append, clean_map, mild_append, mild_found, mild_guard, ih,
      Problem.severity, List.map_cons, fresh_cons, List.forall_mem_cons]
    simp only [ne_eq, not_true_eq_false, imp_false, not_or]
    tauto

theorem clean_outcomes {step : String} {index : Nat} {outcomes : List (Outcome Step)} :
    Clean (outcomeFindings site step index seen outcomes) ↔
      Fresh seen (outcomes.map Outcome.id) := by
  induction outcomes generalizing index seen with
  | nil => simp [outcomeFindings]
  | cons o rest ih =>
    simp only [outcomeFindings, clean_append, clean_map, mild_found, ih, Problem.severity,
      List.map_cons, fresh_cons]
    simp only [ne_eq, not_true_eq_false, imp_false, not_or]

/-- Nothing is found on the body of a step just when its paths or outcomes keep the bounds and are
told apart by their ids. -/
theorem clean_body : Clean (k.bodyFindings site s) ↔
    (∀ kind join paths, s.body = .branch kind join paths →
      2 ≤ paths.length ∧ paths.length ≤ k.limits.maxPaths.toNat ∧
        Identified (paths.map Path.id) ∧
        ∀ p ∈ paths, p.guard.Fits k.limits) ∧
    ∀ outcomes, s.body = .decision outcomes →
      2 ≤ outcomes.length ∧ outcomes.length ≤ k.limits.maxOutcomes.toNat ∧
        Identified (outcomes.map Outcome.id) := by
  unfold bodyFindings
  cases s.body with
  | branch kind join paths =>
    simp only [clean_append, clean_map, mild_found, Problem.severity, ne_eq, not_true_eq_false,
      imp_false, not_or, Nat.not_lt, clean_paths, fresh_nil_iff, and_assoc, Body.branch.injEq,
      and_imp, forall_apply_eq_imp_iff₂, forall_apply_eq_imp_iff, forall_eq', reduceCtorEq,
      IsEmpty.forall_iff, implies_true, and_true]
  | decision outcomes =>
    simp only [clean_append, clean_map, mild_found, Problem.severity, ne_eq, not_true_eq_false,
      imp_false, not_or, Nat.not_lt, clean_outcomes, fresh_nil_iff, and_assoc, reduceCtorEq,
      IsEmpty.forall_iff, implies_true, Body.decision.injEq, forall_eq', true_and]
  | action _ _ _ | subFlow _ _ | goto _ | gotoDestination _ | terminate _ => simp

/-- Nothing is wrong with one step, its id and nested steps apart. -/
structure Clears (k : Inspection) (owner : Option Step) (depth : Nat) (s : Step) : Prop where
  milestone : Mild (k.milestoneProblems owner s)
  placement : Mild (k.placementProblems owner s)
  body : Clean (k.bodyFindings [] s)
  scopes : ∀ i ∈ s.inner, depth + 1 ≤ k.limits.maxDepth.toNat

theorem clears_iff (ids : Identified k.flow.ids) {depth : Nat} :
    k.Clears owner depth s ↔ k.flow.Admits k.limits owner depth s := by
  constructor
  · rintro ⟨hm, hp, hb, hs⟩
    obtain ⟨hgoto, hterminate⟩ := (mild_placement ids).mp hp
    obtain ⟨hbranch, hdecision⟩ := clean_body.mp hb
    exact ⟨mild_milestone.mp hm, hs, hgoto, hterminate, hbranch, hdecision⟩
  · rintro ⟨hm, hs, hgoto, hterminate, hbranch, hdecision⟩
    exact ⟨mild_milestone.mpr hm, (mild_placement ids).mpr ⟨hgoto, hterminate⟩,
      clean_body.mpr ⟨hbranch, hdecision⟩, hs⟩

end Inspection

namespace Step.Holds

variable {owner o : Option Step} {depth d : Nat} {s t : Step} {rest : List Step}

theorem not_nil : ¬ Step.Holds [] owner depth o d t := by
  intro h
  cases h with
  | here hs => cases hs
  | inner hs _ _ => cases hs

theorem singleton_iff : Step.Holds [s] owner depth o d t ↔
    (o = owner ∧ d = depth ∧ t = s) ∨
      ∃ i ∈ s.inner, Step.Holds i.2 (some s) (depth + 1) o d t := by
  constructor
  · intro h
    cases h with
    | here hs => exact .inl ⟨rfl, rfl, List.mem_singleton.mp hs⟩
    | inner hs hi ht =>
      rw [List.mem_singleton] at hs
      subst hs
      exact .inr ⟨_, hi, ht⟩
  · rintro (⟨rfl, rfl, rfl⟩ | ⟨i, hi, ht⟩)
    · exact .here List.mem_cons_self
    · exact .inner List.mem_cons_self hi ht

theorem cons_iff (rest : List Step) : Step.Holds (s :: rest) owner depth o d t ↔
    Step.Holds [s] owner depth o d t ∨ Step.Holds rest owner depth o d t := by
  constructor
  · intro h
    cases h with
    | here hs =>
      rcases List.mem_cons.mp hs with rfl | hs
      · exact .inl (.here List.mem_cons_self)
      · exact .inr (.here hs)
    | inner hs hi ht =>
      rcases List.mem_cons.mp hs with rfl | hs
      · exact .inl (.inner List.mem_cons_self hi ht)
      · exact .inr (.inner hs hi ht)
  · rintro (h | h)
    · rcases singleton_iff.mp h with ⟨rfl, rfl, rfl⟩ | ⟨i, hi, ht⟩
      · exact .here List.mem_cons_self
      · exact .inner List.mem_cons_self hi ht
    · cases h with
      | here hs => exact .here (List.mem_cons_of_mem s hs)
      | inner hs hi ht => exact .inner (List.mem_cons_of_mem s hs) hi ht

end Step.Holds

namespace Inspection

variable (k : Inspection)

/-- The findings on the scopes of one step, from the one at `index` on. -/
def innerFindings (around : Surroundings) (part : Part) (index : Nat) (seen : List String) :
    List (List Step) → List Finding
  | [] => []
  | steps :: rest =>
    k.depthFindings (around.site ++ [(part, index)]) around.depth
      ++ Step.findingsAll k { around with site := around.site ++ [(part, index)] } 0 seen steps
      ++ innerFindings around part (index + 1) (Step.idsOf steps ++ seen) rest

end Inspection

theorem Path.findingsAll_eq (k : Inspection) (around : Surroundings) (index : Nat)
    (seen : List String) (paths : List (Path Step)) :
    Path.findingsAll k around index seen paths =
      k.innerFindings around .paths index seen (paths.map Path.steps) := by
  induction paths generalizing index seen with
  | nil => simp [Path.findingsAll, Inspection.innerFindings]
  | cons p rest ih => simp [Path.findingsAll, Inspection.innerFindings, ih]

theorem Outcome.findingsAll_eq (k : Inspection) (around : Surroundings) (index : Nat)
    (seen : List String) (outcomes : List (Outcome Step)) :
    Outcome.findingsAll k around index seen outcomes =
      k.innerFindings around .outcomes index seen (outcomes.map Outcome.steps) := by
  induction outcomes generalizing index seen with
  | nil => simp [Outcome.findingsAll, Inspection.innerFindings]
  | cons o rest ih => simp [Outcome.findingsAll, Inspection.innerFindings, ih]

namespace Step

/-- Findings are those on the step itself and then those on the scopes it owns. -/
theorem findings_eq (k : Inspection) (around : Surroundings) (index : Nat) (seen : List String)
    (s : Step) : ∃ part, s.findings k around index seen =
      k.stepFindings around.owner (around.site ++ [(.steps, index)]) seen s
        ++ k.innerFindings ⟨around.site ++ [(.steps, index)], around.depth + 1, some s⟩ part 0
          (s.id :: seen) (s.inner.map Prod.snd) := by
  obtain ⟨id, milestone, title, description, due, config, body⟩ := s
  cases body with
  | branch kind join paths =>
    exact ⟨.paths,
      by simp [findings, Body.findings, inner, Path.findingsAll_eq, Function.comp_def]⟩
  | decision outcomes =>
    exact ⟨.outcomes, by
      simp [findings, Body.findings, inner, Outcome.findingsAll_eq, Function.comp_def]⟩
  | action _ _ _ | subFlow _ _ | goto _ | gotoDestination _ | terminate _ =>
    exact ⟨.paths, by simp [findings, Body.findings, inner, Inspection.innerFindings]⟩

/-- The findings on a step and the steps nested in it agree with the rules, wherever it stands. -/
def Agrees (k : Inspection) (s : Step) : Prop :=
  ∀ (around : Surroundings) (index : Nat) (seen : List String),
    Clean (s.findings k around index seen) ↔
      Fresh seen s.ids ∧
        ∀ owner depth t, Holds [s] around.owner around.depth owner depth t →
          k.Clears owner depth t

theorem clean_findingsAll {k : Inspection} {around : Surroundings} {index : Nat}
    {seen : List String} {steps : List Step} (h : ∀ s ∈ steps, s.Agrees k) :
    Clean (findingsAll k around index seen steps) ↔
      Fresh seen (idsOf steps) ∧
        ∀ owner depth t, Holds steps around.owner around.depth owner depth t →
          k.Clears owner depth t := by
  induction steps generalizing index seen with
  | nil => simp [findingsAll, idsOf, Holds.not_nil]
  | cons s rest ih =>
    rw [findingsAll, idsOf, clean_append, fresh_append, h s List.mem_cons_self,
      ih fun t ht => h t (List.mem_cons_of_mem s ht)]
    simp only [Holds.cons_iff rest, or_imp, forall_and]
    tauto

theorem clean_innerFindings {k : Inspection} {around : Surroundings} {part : Part} {index : Nat}
    {seen : List String} {scopes : List (Scope × List Step)}
    (h : ∀ i ∈ scopes, ∀ t ∈ i.2, t.Agrees k) :
    Clean (k.innerFindings around part index seen (scopes.map Prod.snd)) ↔
      Fresh seen (scopes.flatMap fun i => idsOf i.2) ∧
        (∀ i ∈ scopes, around.depth ≤ k.limits.maxDepth.toNat) ∧
        ∀ i ∈ scopes, ∀ owner depth t, Holds i.2 around.owner around.depth owner depth t →
          k.Clears owner depth t := by
  induction scopes generalizing index seen with
  | nil => simp [Inspection.innerFindings]
  | cons i rest ih =>
    have hdepth : ∀ site, Clean (k.depthFindings site around.depth) ↔
        around.depth ≤ k.limits.maxDepth.toNat := by
      simp [Inspection.depthFindings, Problem.severity]
    simp only [List.map_cons, Inspection.innerFindings, clean_append, hdepth,
      clean_findingsAll (h i List.mem_cons_self), ih fun j hj => h j (List.mem_cons_of_mem i hj),
      List.flatMap_cons, fresh_append, List.forall_mem_cons]
    tauto

/-- By induction on the tree: each scope is judged with the step that owns it, one level deeper. -/
theorem agrees (k : Inspection) (s : Step) : s.Agrees k := by
  induction s using Step.induction_inner with
  | h s ih =>
    intro around index seen
    obtain ⟨part, hfindings⟩ := findings_eq k around index seen s
    rw [hfindings, clean_append, clean_innerFindings ih, ids_eq, fresh_cons]
    simp only [Inspection.stepFindings, clean_append, clean_map, mild_append, Inspection.mild_id,
      Holds.singleton_iff]
    constructor
    · rintro ⟨⟨⟨⟨hid, hmilestone⟩, hplacement⟩, hbody⟩, hfresh, hdepth, hinner⟩
      refine ⟨⟨hid, hfresh⟩, ?_⟩
      rintro owner depth t (⟨rfl, rfl, rfl⟩ | ⟨i, hi, ht⟩)
      · exact ⟨hmilestone, hplacement,
          Inspection.clean_body.mpr (Inspection.clean_body.mp hbody), hdepth⟩
      · exact hinner i hi owner depth t ht
    · rintro ⟨⟨hid, hfresh⟩, hall⟩
      obtain ⟨hmilestone, hplacement, hbody, hdepth⟩ := hall _ _ _ (.inl ⟨rfl, rfl, rfl⟩)
      exact ⟨⟨⟨⟨hid, hmilestone⟩, hplacement⟩,
        Inspection.clean_body.mpr (Inspection.clean_body.mp hbody)⟩, hfresh, hdepth,
        fun i hi owner depth t ht => hall owner depth t (.inr ⟨i, hi, ht⟩)⟩

end Step

/-- A flow is sound exactly if it keeps all rules. -/
theorem Flow.isSound_iff_keepsRules (limits : Constraints) (f : Flow) :
    f.isSound limits = true ↔ f.KeepsRules limits := by
  have hclears : Identified f.ids →
      ((∀ owner depth s, f.Holds owner depth s →
        (⟨f, limits⟩ : Inspection).Clears owner depth s) ↔
        ∀ owner depth s, f.Holds owner depth s → f.Admits limits owner depth s) := by
    intro ids
    simp only [Inspection.clears_iff (k := ⟨f, limits⟩) ids]
  rw [isSound_iff_clean, findings, clean_append, Milestone.clean_findings,
    Step.clean_findingsAll fun s _ => s.agrees _, fresh_nil_iff]
  constructor
  · rintro ⟨⟨hmilestones, _⟩, ids, hall⟩
    exact ⟨ids, hmilestones, (hclears ids).mp hall⟩
  · rintro ⟨ids, hmilestones, hall⟩
    exact ⟨⟨hmilestones, fun _ _ => List.not_mem_nil⟩, ids, (hclears ids).mpr hall⟩

end Workflow
