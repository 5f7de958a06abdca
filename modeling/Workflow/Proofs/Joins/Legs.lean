import Workflow.Proofs.Planner

/-!
The legs of the way from a finished step to the next ones, as the planner goes them one after the
other. On each leg a branch opens a fork, a path reports to its fork, or a strand leaves a scope
that is no path of its fork, and each may go on behind the owner of the scope.
-/

namespace Workflow

def Fork.continuation (g : Fork) : Strand :=
  ⟨g.branch, g.parent, .behind⟩

/-- A leg, with where the planner goes on, if it does. -/
inductive Leg where
  | opens (fork : Fork) (onward : Option Strand)
  | reports (path : String) (before after : Fork) (onward : Option Strand)
  | climbs (onward : Strand)

namespace Leg

def onward? : Leg → Option Strand
  | .opens _ onward => onward
  | .reports _ _ _ onward => onward
  | .climbs onward => some onward

def fork? : Leg → Option Fork
  | .opens g _ => some g
  | .reports _ _ g _ => some g
  | .climbs _ => none

/-- Where the last of some legs goes on, or where a strand was before them if there are none. -/
def landing (start : Option Strand) (legs : List Leg) : Option Strand :=
  legs.foldl (fun _ leg => leg.onward?) start

@[simp] theorem landing_nil (start : Option Strand) : landing start [] = start := rfl

/-- Where the leg goes on on behalf of the fork with that id. -/
def resumes? (id : String) (leg : Leg) : Option Strand :=
  if leg.fork?.map Fork.id = some id then leg.onward? else none

end Leg

namespace Outline

mutual

/-- The legs on the way behind the step at a position. -/
def onwardLegs (o : Outline) (forks : List Fork) (fork : Option String)
    (i : Fin o.places.length) : List Leg :=
  match (o.place i).next? with
  | some _ => []
  | none => o.leaveLegs forks fork i
termination_by (i.val, 1)

/-- The legs on the way out of the scope around the step at a position. -/
def leaveLegs (o : Outline) (forks : List Fork) (fork : Option String) (i : Fin o.places.length) :
    List Leg :=
  match _hs : (o.place i).scope? with
  | none => []
  | some scope =>
    match _hj : o.indexOf? scope.owner with
    | none => []
    | some j =>
      match Fork.of? forks fork scope.owner with
      | none => .climbs ⟨(o.place j).id, fork, .behind⟩ :: o.onwardLegs forks fork j
      | some f =>
        if f.joined then [.reports scope.id f f none]
        else
          let reported := f.report scope.id
          let forks := reported.store forks
          if reported.joined then
            .reports scope.id f reported (some ⟨(o.place j).id, f.parent, .behind⟩)
              :: o.onwardLegs forks f.parent j
          else [.reports scope.id f reported none]
termination_by (i.val, 0)
decreasing_by
  all_goals
    have := o.indexOf?_owner_lt _hs _hj
    exact Prod.Lex.left _ _ this

end

end Outline

inductive Route where
  | past
  | enter (steps : List Step)
  | fanOut (join : Quorum) (paths : List (Path Step))
  | goto (step : String)
  | stop (status : TerminateStatus)
  | quit (status : TerminateStatus)

namespace Outline

def route (o : Outline) (policy : EnginePolicy) (s : Situation) (i : Fin o.places.length) : Route :=
  match (o.place i).step.body with
  | .action _ _ _ | .subFlow _ _ | .gotoDestination _ => .past
  | .branch .singleChoice _ paths =>
    match s.single paths with
    | some p => .enter p.steps
    | none => .past
  | .branch .multiChoice join paths =>
    match s.several paths with
    | [] => .past
    | p :: rest =>
      match policy.multiChoice with
      | .firstMatch => .enter p.steps
      | .fanOut => .fanOut join (p :: rest)
  | .branch .parallel join paths => if paths.isEmpty then .past else .fanOut join paths
  | .decision outcomes =>
    match s.outcome outcomes with
    | some outcome => .enter outcome.steps
    | none => .past
  | .goto target =>
    match o.find? target with
    | some place => if place.onMainPath then .goto place.id else .past
    | none => .past
  | .terminate status =>
    if policy.terminate = .endRun ∨ (o.place i).onMainPath then .stop status else .quit status

section

variable (o : Outline) (forks : List Fork) (fork : Option String) (newId : String)
  (i : Fin o.places.length)

def carryOut : Route → Planned
  | .past => .ofOnward (o.onward forks fork i)
  | .enter steps => .ofOnward (o.enter forks fork i steps)
  | .fanOut join paths =>
    ⟨(o.fanOut forks fork newId i join paths).1,
      (o.fanOut forks fork newId i join paths).2, true⟩
  | .goto step => ⟨{ activations := [⟨step, none⟩] }, forks, false⟩
  | .stop status => ⟨{ terminate := some status, endRun := true }, forks, false⟩
  | .quit status =>
    ⟨{ (o.leave forks fork i).1.toPlan with terminate := some status }, (o.leave forks fork i).2,
      false⟩

def routeLegs : Route → List Leg
  | .past | .enter [] => o.onwardLegs forks fork i
  | .fanOut join paths =>
    let opened := Fork.opening newId (o.place i).id fork join paths
    if opened.joined then
      .opens opened (some ⟨(o.place i).id, fork, .behind⟩)
        :: o.onwardLegs (forks ++ [opened]) fork i
    else [.opens opened none]
  | .quit _ => o.leaveLegs forks fork i
  | .enter (_ :: _) | .goto _ | .stop _ => []

/-- What follows a step is told in two: how it is treated, and what the treatment comes to. -/
theorem afterPlace_eq (policy : EnginePolicy) (s : Situation) :
    o.afterPlace policy forks s fork newId i =
      o.carryOut forks fork newId i (o.route policy s i) := by
  unfold afterPlace route
  generalize (o.place i).step.body = body
  cases body with
  | action _ _ _ => rfl
  | subFlow _ _ => rfl
  | gotoDestination _ => rfl
  | branch kind join paths =>
    unfold afterBranch
    cases kind with
    | singleChoice =>
      dsimp only
      cases s.single paths <;> rfl
    | multiChoice =>
      dsimp only
      cases s.several paths with
      | nil => rfl
      | cons p rest =>
        cases policy.multiChoice <;> rfl
    | parallel => cases paths <;> rfl
  | decision outcomes =>
    dsimp only
    cases s.outcome outcomes <;> rfl
  | goto target =>
    dsimp only
    cases o.find? target with
    | none => rfl
    | some place =>
      dsimp only
      cases place.onMainPath <;> rfl
  | terminate status =>
    dsimp only
    split <;> rfl

end

/-- The legs behind a step once it finished with a result as part of a fork. -/
def afterLegs (o : Outline) (policy : EnginePolicy) (run : Run) (newId stepId : String)
    (result : Record) (fork : Option String) : List Leg :=
  match o.indexOf? stepId with
  | none => []
  | some i => o.routeLegs run.forks fork newId i (o.route policy ⟨result, run⟩ i)

end Outline

namespace Outline

section Equations

variable {o : Outline} {forks : List Fork} {fork : Option String} {i j : Fin o.places.length}
  {scope : Scope} {g : Fork}

theorem onwardLegs_next {s : Step} (h : (o.place i).next? = some s) :
    o.onwardLegs forks fork i = [] := by
  rw [onwardLegs, h]

theorem onwardLegs_last (h : (o.place i).next? = none) :
    o.onwardLegs forks fork i = o.leaveLegs forks fork i := by
  rw [onwardLegs, h]

theorem leaveLegs_main (h : (o.place i).scope? = none) : o.leaveLegs forks fork i = [] := by
  rw [leaveLegs]
  split <;> simp_all

theorem leaveLegs_lost (hs : (o.place i).scope? = some scope)
    (hj : o.indexOf? scope.owner = none) : o.leaveLegs forks fork i = [] := by
  rw [leaveLegs]
  split
  · simp_all
  · split <;> simp_all

theorem leaveLegs_of (hs : (o.place i).scope? = some scope)
    (hj : o.indexOf? scope.owner = some j) :
    o.leaveLegs forks fork i =
      match Fork.of? forks fork scope.owner with
      | none => .climbs ⟨(o.place j).id, fork, .behind⟩ :: o.onwardLegs forks fork j
      | some g =>
        if g.joined then [.reports scope.id g g none]
        else if (g.report scope.id).joined then
          .reports scope.id g (g.report scope.id) (some ⟨(o.place j).id, g.parent, .behind⟩)
            :: o.onwardLegs ((g.report scope.id).store forks) g.parent j
        else [.reports scope.id g (g.report scope.id) none] := by
  rw [leaveLegs]
  split
  · simp_all
  · rename_i scope' hs'
    obtain rfl : scope = scope' := by simpa [hs] using hs'
    split
    · simp_all
    · rename_i k hk
      obtain rfl : j = k := by simpa [hj] using hk
      rfl

end Equations

/-- What a strand comes to on its way, with the legs of it, shown step by step. -/
theorem onwardLegs_induct {o : Outline}
    {P Q : List Fork → Option String → Fin o.places.length →
      Onward × List Fork → List Leg → Prop}
    (next : ∀ {forks fork i s}, (o.place i).next? = some s →
      P forks fork i (.activate ⟨s.id, fork⟩, forks) [])
    (last : ∀ {forks fork i went legs}, (o.place i).next? = none →
      Q forks fork i went legs → P forks fork i went legs)
    (main : ∀ {forks fork i}, (o.place i).scope? = none →
      Q forks fork i (.exhausted, forks) [])
    (lost : ∀ {forks fork i scope}, (o.place i).scope? = some scope →
      o.indexOf? scope.owner = none → Q forks fork i (.absorbed, forks) [])
    (climb : ∀ {forks fork i j scope went legs}, (o.place i).scope? = some scope →
      o.indexOf? scope.owner = some j → Fork.of? forks fork scope.owner = none →
      P forks fork j went legs →
      Q forks fork i went (.climbs ⟨(o.place j).id, fork, .behind⟩ :: legs))
    (late : ∀ {forks fork i scope g}, (o.place i).scope? = some scope →
      Fork.of? forks fork scope.owner = some g → g.joined = true →
      Q forks fork i (.absorbed, forks) [.reports scope.id g g none])
    (join : ∀ {forks fork i j scope g went legs}, (o.place i).scope? = some scope →
      o.indexOf? scope.owner = some j → Fork.of? forks fork scope.owner = some g →
      g.joined = false → (g.report scope.id).joined = true →
      P ((g.report scope.id).store forks) g.parent j went legs →
      Q forks fork i went
        (.reports scope.id g (g.report scope.id) (some ⟨(o.place j).id, g.parent, .behind⟩) ::
          legs))
    (wait : ∀ {forks fork i scope g}, (o.place i).scope? = some scope →
      Fork.of? forks fork scope.owner = some g → g.joined = false →
      (g.report scope.id).joined = false →
      Q forks fork i (.absorbed, (g.report scope.id).store forks)
        [.reports scope.id g (g.report scope.id) none]) :
    (∀ forks fork i, P forks fork i (o.onward forks fork i) (o.onwardLegs forks fork i)) ∧
    ∀ forks fork i, Q forks fork i (o.leave forks fork i) (o.leaveLegs forks fork i) := by
  apply Outline.onward.mutual_induct o
    (fun forks fork i => P forks fork i (o.onward forks fork i) (o.onwardLegs forks fork i))
    (fun forks fork i => Q forks fork i (o.leave forks fork i) (o.leaveLegs forks fork i))
  · intro forks fork i s hn
    rw [onward_next hn, onwardLegs_next hn]
    exact next hn
  · intro forks fork i hn ih
    rw [onward_last hn, onwardLegs_last hn]
    exact last hn ih
  · intro forks fork i hs
    rw [leave_main hs, leaveLegs_main hs]
    exact main hs
  · intro forks fork i scope hs hj
    rw [leave_lost hs hj, leaveLegs_lost hs hj]
    exact lost hs hj
  · intro forks fork i scope hs j hj hg ih
    rw [leave_of hs hj, leaveLegs_of hs hj, hg]
    exact climb hs hj hg ih
  · intro forks fork i scope hs j hj g hg hjoined
    rw [leave_of hs hj, leaveLegs_of hs hj, hg]
    simp only [hjoined, if_true]
    exact late hs hg hjoined
  · intro forks fork i scope hs j hj g hg hjoined _ _ hr ih
    rw [leave_of hs hj, leaveLegs_of hs hj, hg]
    dsimp only
    rw [if_neg hjoined, if_pos hr, if_neg hjoined, if_pos hr]
    exact join hs hj hg (Bool.eq_false_iff.mpr hjoined) hr ih
  · intro forks fork i scope hs j hj g hg hjoined _ hr
    rw [leave_of hs hj, leaveLegs_of hs hj, hg]
    dsimp only
    rw [if_neg hjoined, if_neg hr, if_neg hjoined, if_neg hr]
    exact wait hs hg (Bool.eq_false_iff.mpr hjoined) (Bool.eq_false_iff.mpr hr)

/-- What comes of a strand that stands behind a step or leaves the scope around it. -/
def land (o : Outline) : Option Strand → Onward
  | none => .absorbed
  | some s =>
    match s.phase, (o.find? s.step).bind Place.next? with
    | .behind, some next => .activate ⟨next.id, s.fork⟩
    | _, _ => .exhausted

theorem land_behind {f : Flow} (unique : f.ids.Nodup) {p : Place} (hp : f.Has p)
    (fork : Option String) :
    f.outline.land (some ⟨p.id, fork, .behind⟩) =
      match p.next? with
      | some next => .activate ⟨next.id, fork⟩
      | none => .exhausted := by
  have hfind : f.outline.find? p.id = some p := (Flow.find?_eq_some_iff unique).mpr ⟨hp, rfl⟩
  simp only [land, hfind, Option.bind_some]
  cases p.next? <;> rfl

/-- What is planned for a strand is what comes of it where the last leg leaves it. -/
theorem onward_lands {f : Flow} (unique : f.ids.Nodup) :
    (∀ (forks : List Fork) (fork : Option String) (i : Fin f.outline.places.length),
      (f.outline.onward forks fork i).1 =
        f.outline.land (Leg.landing (some ⟨(f.outline.place i).id, fork, .behind⟩)
          (f.outline.onwardLegs forks fork i))) ∧
    ∀ (forks : List Fork) (fork : Option String) (i : Fin f.outline.places.length),
      (f.outline.leave forks fork i).1 =
        f.outline.land (Leg.landing (some ⟨(f.outline.place i).id, fork, .leaving⟩)
          (f.outline.leaveLegs forks fork i)) := by
  refine onwardLegs_induct
    (P := fun _ fork i went legs => went.1 =
      f.outline.land (Leg.landing (some ⟨(f.outline.place i).id, fork, .behind⟩) legs))
    (Q := fun _ fork i went legs => went.1 =
      f.outline.land (Leg.landing (some ⟨(f.outline.place i).id, fork, .leaving⟩) legs))
    ?next ?last ?main ?lost ?climb ?late ?join ?wait
  case next =>
    intro forks fork i s hn
    rw [Leg.landing_nil, land_behind unique (has_place i), hn]
  case last =>
    intro forks fork i went legs hn ih
    rw [ih]
    -- Behind the last step of a scope there is nothing but the way out.
    cases legs with
    | nil =>
      rw [Leg.landing_nil, Leg.landing_nil, land_behind unique (has_place i), hn]
      rfl
    | cons leg rest => rfl
  case lost =>
    intro forks fork i scope hs hj
    obtain ⟨o, ho, hi, _⟩ := (has_place i).owner hs
    have hid : o.id = scope.owner := (Step.owner_of_inner hi).symm
    obtain ⟨j, hj', _⟩ := exists_indexOf? unique ho
    rw [hid, hj] at hj'
    cases hj'
  case climb =>
    intro forks fork i j scope went legs _ _ _ ih
    exact ih
  case join =>
    intro forks fork i j scope g went legs _ _ _ _ _ ih
    exact ih
  case main | late | wait =>
    intros
    rfl

end Outline

namespace Route

variable (fork : Option String)

def base (newId : String) : Route → Plan
  | .past | .enter [] => {}
  | .enter (s :: _) => { activations := [⟨s.id, fork⟩] }
  | .fanOut _ paths => { activations := Path.heads newId paths }
  | .goto step => { activations := [⟨step, none⟩] }
  | .stop status => { terminate := some status, endRun := true }
  | .quit status => { terminate := some status }

/-- The strand that is left of a step that is treated, and that has yet to find its way. -/
def strand? (step : String) : Route → Option Strand
  | .past | .enter [] => some ⟨step, fork, .behind⟩
  | .quit _ => some ⟨step, fork, .leaving⟩
  | .enter (_ :: _) | .fanOut _ _ | .goto _ | .stop _ => none

end Route

theorem Plan.add_empty (next : Onward) : ({} : Plan).add next = next.toPlan := by
  cases next <;> rfl

/-- A plan holds what the treatment of the step starts by itself, and what comes of the strand where
the last leg goes on. -/
theorem Outline.plan_carryOut {f : Flow} (unique : f.ids.Nodup) (forks : List Fork)
    (fork : Option String) (newId : String) (i : Fin f.outline.places.length) (route : Route) :
    (f.outline.carryOut forks fork newId i route).plan =
      (route.base fork newId).add (f.outline.land
        (Leg.landing (route.strand? fork (f.outline.place i).id)
          (f.outline.routeLegs forks fork newId i route))) := by
  have honward := (onward_lands unique).1 forks fork i
  cases route with
  | past =>
    simp only [Route.base, Route.strand?, routeLegs, ← honward]
    exact (Plan.add_empty _).symm
  | enter steps =>
    cases steps with
    | nil =>
      simp only [Route.base, Route.strand?, routeLegs, ← honward]
      exact (Plan.add_empty _).symm
    | cons s rest => rfl
  | fanOut join paths =>
    simp only [carryOut, routeLegs, fanOut_eq]
    split
    · rw [(onward_lands unique).1]
      rfl
    · rfl
  | goto step => rfl
  | stop status => rfl
  | quit status =>
    simp only [Route.base, Route.strand?, routeLegs, ← (onward_lands unique).2 forks fork i]
    simp only [carryOut]
    cases (f.outline.leave forks fork i).1 <;> rfl

/-- What is planned behind a step, told by the legs. -/
theorem Outline.plan_after {f : Flow} {policy : EnginePolicy} {run : Run} {newId stepId : String}
    {result : Record} {fork : Option String} {i : Fin f.outline.places.length}
    (unique : f.ids.Nodup) (hi : f.outline.indexOf? stepId = some i) :
    (f.outline.after policy run newId stepId result fork).plan =
      ((f.outline.route policy ⟨result, run⟩ i).base fork newId).add
        (f.outline.land
          (Leg.landing ((f.outline.route policy ⟨result, run⟩ i).strand? fork stepId)
          (f.outline.afterLegs policy run newId stepId result fork))) := by
  unfold after afterLegs
  simp only [hi, afterPlace_eq]
  rw [plan_carryOut unique, id_of_indexOf? hi]

end Workflow
