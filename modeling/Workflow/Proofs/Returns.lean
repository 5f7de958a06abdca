import Workflow.Proofs.Course
import Workflow.Proofs.Planner

namespace Workflow

/-- Steps that neither choose a way nor end one: behind them a run just goes on. -/
def Body.isPlain {σ : Type} : Body σ → Bool
  | .action _ _ _ | .subFlow _ _ | .gotoDestination _ => true
  | _ => false

namespace Fork

/-- A strand of that fork means `g`, the first one with its id. -/
structure IsMeant (g : Fork) (pre post forks : List Fork) (fork : Option String) : Prop where
  forks_eq : forks = pre ++ g :: post
  first : ∀ k ∈ pre, k.id ≠ g.id
  named : fork = some g.id

def finishedWith (g : Fork) (path : String) : List String :=
  if path ∈ g.finished then g.finished else g.finished ++ [path]

def Suffices (g : Fork) (finished : List String) : Prop :=
  g.join.isSatisfied finished.length g.paths.length = true

/-- What becomes of a strand that comes to the end of a path of a branch: the forks afterwards, and
the fork as whose part it goes on behind the branch, if it does. -/
inductive Receives (forks : List Fork) (fork : Option String) (branch path : String) :
    List Fork → Option (Option String) → Prop where
  /-- The strand is not part of a fork of the branch. -/
  | passes (other : ∀ {g pre post}, IsMeant g pre post forks fork → g.branch ≠ branch) :
      Receives forks fork branch path forks (some fork)
  | late {g : Fork} {pre post : List Fork} (hg : g.IsMeant pre post forks fork)
      (hb : g.branch = branch) (hj : g.joined = true) : Receives forks fork branch path forks none
  | waits {g : Fork} {pre post : List Fork} (hg : g.IsMeant pre post forks fork)
      (hb : g.branch = branch) (hj : g.joined = false) (hs : ¬ g.Suffices (g.finishedWith path)) :
      Receives forks fork branch path
        (pre ++ { g with finished := g.finishedWith path } :: post) none
  | joins {g : Fork} {pre post : List Fork} (hg : g.IsMeant pre post forks fork)
      (hb : g.branch = branch) (hj : g.joined = false) (hs : g.Suffices (g.finishedWith path)) :
      Receives forks fork branch path
        (pre ++ { g with finished := g.finishedWith path, joined := true } :: post) (some g.parent)

/-- What becomes of a strand that comes to the end of a path, as the planner finds it out. -/
def receive (forks : List Fork) (fork : Option String) (branch path : String) :
    List Fork × Option (Option String) :=
  match of? forks fork branch with
  | none => (forks, some fork)
  | some g =>
    if g.joined then (forks, none)
    else ((g.report path).store forks, if (g.report path).joined then some g.parent else none)

end Fork

namespace Flow

structure Encloses (f : Flow) (owner : Place) (scope : Scope) (p : Place) : Prop where
  has : f.Has owner
  mem : (scope, p.siblings) ∈ owner.step.inner
  scopes : p.scopes = owner.scopes ++ [scope]

/-- Where a strand goes behind a place, told by the tree. -/
inductive Returns (f : Flow) :
    List Fork → Option String → Place → Onward × List Fork → Prop where
  | next {forks : List Fork} {fork : Option String} {p : Place} {s : Step} (hn : p.next? = some s) :
      Returns f forks fork p (.activate ⟨s.id, fork⟩, forks)
  | exhausts {forks : List Fork} {fork : Option String} {p : Place} (hn : p.next? = none)
      (hp : p.scopes = []) : Returns f forks fork p (.exhausted, forks)
  | ends {forks forks' : List Fork} {fork : Option String} {o p : Place} {scope : Scope}
      (hn : p.next? = none) (ho : f.Encloses o scope p)
      (hr : Fork.Receives forks fork o.id scope.id forks' none) :
      Returns f forks fork p (.absorbed, forks')
  | climbs {forks forks' : List Fork} {fork fork' : Option String} {o p : Place} {scope : Scope}
      {went : Onward × List Fork} (hn : p.next? = none) (ho : f.Encloses o scope p)
      (hr : Fork.Receives forks fork o.id scope.id forks' (some fork'))
      (h : Returns f forks' fork' o went) : Returns f forks fork p went

/-- Where a strand goes behind a place, in a number of rounds. Each round looks up the owner of the
scope around the place anew. -/
def ascend (f : Flow) : Nat → List Fork → Option String → Place →
    Option (Onward × List Fork)
  | 0, _, _, _ => none
  | rounds + 1, forks, fork, p =>
    match p.next?, p.scope? with
    | some s, _ => some (.activate ⟨s.id, fork⟩, forks)
    | none, none => some (.exhausted, forks)
    | none, some scope =>
      match f.find? scope.owner with
      | none => some (.absorbed, forks)
      | some o =>
        match Fork.receive forks fork scope.owner scope.id with
        | (forks', none) => some (.absorbed, forks')
        | (forks', some fork') => f.ascend rounds forks' fork' o

end Flow

namespace Fork

variable {forks forks' : List Fork} {fork : Option String} {branch path : String} {g : Fork}
  {goesOn : Option (Option String)}

theorem report_eq (g : Fork) (path : String) :
    g.report path =
      { g with
        finished := g.finishedWith path
        joined := g.join.isSatisfied (g.finishedWith path).length g.paths.length } := by
  unfold report finishedWith
  split <;> rfl

theorem report_of_suffices (h : g.Suffices (g.finishedWith path)) :
    g.report path = { g with finished := g.finishedWith path, joined := true } := by
  rw [report_eq, h]

theorem report_of_not_suffices (hj : g.joined = false)
    (h : ¬ g.Suffices (g.finishedWith path)) :
    g.report path = { g with finished := g.finishedWith path } := by
  rw [report_eq, Bool.eq_false_iff.mpr h, ← hj]

theorem IsMeant.of?_eq {pre post : List Fork} (h : g.IsMeant pre post forks fork) :
    of? forks fork g.branch = some g := by
  obtain ⟨rfl, hfirst, rfl⟩ := h
  have hfind : Run.findFork? (pre ++ g :: post) g.id = some g := by
    rw [Run.findFork?, List.find?_eq_some_iff_append]
    exact ⟨by simp, pre, post, rfl, by simpa using hfirst⟩
  simp [of?, hfind]

theorem exists_isMeant (h : of? forks fork branch = some g) :
    g.branch = branch ∧ ∃ pre post, g.IsMeant pre post forks fork := by
  obtain ⟨hfork, hb, pre, post, hforks, hpre⟩ := of?_eq_some h
  exact ⟨hb, pre, post, hforks, hpre, hfork⟩

theorem receive_of {pre post : List Fork} (hg : g.IsMeant pre post forks fork)
    (hj : g.joined = false) :
    receive forks fork g.branch path =
      (pre ++ g.report path :: post, if (g.report path).joined then some g.parent else none) := by
  rw [receive, hg.of?_eq]
  dsimp only
  rw [if_neg (by simp [hj]), hg.forks_eq, store_middle (id_report g path) hg.first]

/-- A fork receives the end of a path as the planner has it. -/
theorem receives_iff :
    Receives forks fork branch path forks' goesOn ↔
      receive forks fork branch path = (forks', goesOn) := by
  constructor
  · intro h
    cases h with
    | passes other =>
      cases hof : of? forks fork branch with
      | none => rw [receive, hof]
      | some g =>
        obtain ⟨hb, pre, post, hg⟩ := exists_isMeant hof
        exact absurd hb (other hg)
    | late hg hb hj =>
      subst hb
      rw [receive, hg.of?_eq]
      exact if_pos hj
    | waits hg hb hj hs =>
      subst hb
      rw [receive_of hg hj, report_of_not_suffices hj hs]
      simp [hj]
    | joins hg hb hj hs =>
      subst hb
      rw [receive_of hg hj, report_of_suffices hs, if_pos rfl]
  · intro h
    cases hof : of? forks fork branch with
    | none =>
      rw [receive, hof] at h
      cases h
      refine .passes fun hg hb => ?_
      rw [← hb, hg.of?_eq] at hof
      cases hof
    | some g =>
      obtain ⟨rfl, pre, post, hg⟩ := exists_isMeant hof
      cases hj : g.joined with
      | true =>
        rw [receive, hof] at h
        dsimp only at h
        rw [if_pos hj] at h
        cases h
        exact .late hg rfl hj
      | false =>
        rw [receive_of hg hj] at h
        by_cases hs : g.Suffices (g.finishedWith path)
        · rw [report_of_suffices hs, if_pos rfl] at h
          cases h
          exact .joins hg rfl hj hs
        · rw [report_of_not_suffices hj hs, if_neg (by simp [hj])] at h
          cases h
          exact .waits hg rfl hj hs

end Fork

namespace Outline

variable {o : Outline} {forks forks' : List Fork} {fork fork' : Option String}
  {i j : Fin o.places.length} {scope : Scope}

/-- Behind the last step of a scope: first the fork of the strand, then the owner of the scope. -/
theorem leave_eq (hs : (o.place i).scope? = some scope) (hj : o.indexOf? scope.owner = some j) :
    o.leave forks fork i =
      match Fork.receive forks fork scope.owner scope.id with
      | (forks', none) => (.absorbed, forks')
      | (forks', some fork') => o.onward forks' fork' j := by
  rw [leave_of hs hj, Fork.receive]
  cases Fork.of? forks fork scope.owner with
  | none => rfl
  | some g =>
    cases hg : g.joined with
    | true => simp [hg]
    | false =>
      cases hr : (g.report scope.id).joined <;> simp [hg, hr]

/-- Induction along the way out of a place, from owner to owner. -/
theorem climb_induct {P : Fin o.places.length → Prop}
    (h : ∀ i, (∀ scope j, (o.place i).scope? = some scope →
      o.indexOf? scope.owner = some j → P j) →
      P i) (i : Fin o.places.length) : P i :=
  h i fun _ j hs hj =>
    have := o.indexOf?_owner_lt hs hj
    climb_induct h j
termination_by i.val

end Outline

namespace Flow

variable {f : Flow}

theorem find?_eq (f : Flow) (id : String) :
    f.find? id = (f.outline.indexOf? id).map f.outline.place := by
  cases hi : f.outline.indexOf? id with
  | none =>
    have hnone := List.findFinIdx?_eq_none_iff.mp hi
    exact List.find?_eq_none.mpr fun p hp => by simp [hnone p hp]
  | some i =>
    obtain ⟨hid, hfirst⟩ := List.findFinIdx?_eq_some_iff.mp hi
    refine List.find?_eq_some_iff_getElem.mpr ⟨hid, i.val, i.isLt, rfl, fun j hj => ?_⟩
    have hne := hfirst ⟨j, Nat.lt_trans hj i.isLt⟩ hj
    simpa [outline] using hne

/-- A round for each step of the flow is enough, whatever the ids. -/
theorem ascend_place (i : Fin f.outline.places.length) :
    ∀ (rounds : Nat) (forks : List Fork) (fork : Option String), i.val < rounds →
      f.ascend rounds forks fork (f.outline.place i) = some (f.outline.onward forks fork i) := by
  induction i using Outline.climb_induct with
  | h i ih =>
    intro rounds forks fork hlt
    obtain ⟨rounds, rfl⟩ := Nat.exists_eq_succ_of_ne_zero (Nat.ne_zero_of_lt hlt)
    rw [ascend]
    cases hn : (f.outline.place i).next? with
    | some s => rw [Outline.onward_next hn]
    | none =>
      rw [Outline.onward_last hn]
      cases hs : (f.outline.place i).scope? with
      | none => rw [Outline.leave_main hs]
      | some scope =>
        dsimp only
        rw [find?_eq]
        cases hj : f.outline.indexOf? scope.owner with
        | none => rw [Outline.leave_lost hs hj]; rfl
        | some j =>
          -- repeated ids may lead to another step than the owner, but never to one further on
          have hji := f.outline.indexOf?_owner_lt hs hj
          rw [Outline.leave_eq hs hj]
          simp only [Option.map_some]
          rcases Fork.receive forks fork scope.owner scope.id with ⟨forks', _ | fork'⟩
          · rfl
          · exact ih scope j hs hj rounds forks' fork' (by omega)

section Unique

variable (unique : f.ids.Nodup)
include unique

theorem Encloses.indexOf? {o p : Place} {scope : Scope} (h : f.Encloses o scope p) :
    p.scope? = some scope ∧ o.id = scope.owner ∧
      ∃ j, f.outline.indexOf? scope.owner = some j ∧ f.outline.place j = o := by
  have hid : scope.owner = o.id := Step.owner_of_inner h.mem
  rw [hid]
  exact ⟨by simp [Place.scope?, h.scopes], rfl, Outline.exists_indexOf? unique h.has⟩

/-- The ways out of the tree are those of the planner. -/
theorem returns_iff (i : Fin f.outline.places.length) :
    ∀ (forks : List Fork) (fork : Option String) (went : Onward × List Fork),
      f.Returns forks fork (f.outline.place i) went ↔ went = f.outline.onward forks fork i := by
  induction i using Outline.climb_induct with
  | h i ih =>
    intro forks fork went
    constructor
    · intro h
      cases h with
      | next hn => rw [Outline.onward_next hn]
      | exhausts hn hp =>
        rw [Outline.onward_last hn, Outline.leave_main (by simp [Place.scope?, hp])]
      | ends hn ho hr =>
        obtain ⟨hs, hid, j, hj, rfl⟩ := ho.indexOf? unique
        rw [hid] at hr
        rw [Outline.onward_last hn, Outline.leave_eq hs hj, Fork.receives_iff.mp hr]
      | climbs hn ho hr h =>
        obtain ⟨hs, hid, j, hj, rfl⟩ := ho.indexOf? unique
        rw [hid] at hr
        rw [Outline.onward_last hn, Outline.leave_eq hs hj, Fork.receives_iff.mp hr]
        exact (ih _ j hs hj _ _ _).mp h
    · rintro rfl
      cases hn : (f.outline.place i).next? with
      | some s =>
        rw [Outline.onward_next hn]
        exact .next hn
      | none =>
        rw [Outline.onward_last hn]
        cases hs : (f.outline.place i).scope? with
        | none =>
          rw [Outline.leave_main hs]
          exact .exhausts hn (List.getLast?_eq_none_iff.mp hs)
        | some scope =>
          obtain ⟨o, ho, hi, hscopes⟩ := (Outline.has_place i).owner hs
          have hencl : f.Encloses o scope (f.outline.place i) := ⟨ho, hi, hscopes⟩
          obtain ⟨-, hid, j, hj, rfl⟩ := hencl.indexOf? unique
          rw [Outline.leave_eq hs hj]
          rcases hr : Fork.receive forks fork scope.owner scope.id with ⟨forks', _ | fork'⟩
          · exact .ends hn hencl (Fork.receives_iff.mpr (hid ▸ hr))
          · exact .climbs hn hencl (Fork.receives_iff.mpr (hid ▸ hr))
              ((ih _ j hs hj _ _ _).mpr rfl)

end Unique

theorem after_plain {p : Place} {i : Fin f.outline.places.length} (policy : EnginePolicy)
    (run : Run) (newId : String) (result : Record) (fork : Option String)
    (hi : f.outline.indexOf? p.id = some i) (hp : f.outline.place i = p)
    (hb : p.step.body.isPlain = true) :
    f.outline.after policy run newId p.id result fork =
      .ofOnward (f.outline.onward run.forks fork i) := by
  rw [Outline.after, hi]
  dsimp only
  rw [Outline.afterPlace, hp]
  cases hbody : p.step.body <;> simp [hbody, Body.isPlain] at hb ⊢

/-- Behind an action, a sub-flow or a destination the planner goes where the tree leads, to one step
at most. -/
theorem after_follows_tree (f : Flow) (policy : EnginePolicy) (run : Run) (newId : String)
    (result : Record) (fork : Option String) :
    (f.ids.Nodup → ∀ p, f.Has p → p.step.body.isPlain = true →
      ∃ went, (∀ went', f.Returns run.forks fork p went' ↔ went' = went) ∧
        f.outline.after policy run newId p.id result fork = .ofOnward went ∧
        (Planned.ofOnward went).plan.activations.length +
          (Planned.ofOnward went).plan.exhausted.toNat ≤ 1) ∧
    ∀ p, f.Has p → ∃ went,
      (∀ rounds, f.ids.length ≤ rounds → f.ascend rounds run.forks fork p = some went) ∧
      (f.find? p.id = some p → p.step.body.isPlain = true →
        f.outline.after policy run newId p.id result fork = .ofOnward went) := by
  constructor
  · intro unique p hp hb
    obtain ⟨i, hi, rfl⟩ := Outline.exists_indexOf? unique hp
    refine ⟨_, returns_iff unique i run.forks fork,
      after_plain policy run newId result fork hi rfl hb, ?_⟩
    rcases f.outline.onward run.forks fork i with ⟨_ | _ | _, _⟩ <;>
      simp [Planned.ofOnward, Onward.toPlan]
  · intro p hp
    have hlen : f.places.length = f.ids.length := by rw [← map_id_places, List.length_map]
    obtain ⟨k, hk, rfl⟩ := List.getElem_of_mem (mem_places_iff.mpr hp)
    have hall : ∀ rounds, f.ids.length ≤ rounds →
        f.ascend rounds run.forks fork f.places[k] =
          some (f.outline.onward run.forks fork ⟨k, hk⟩) :=
      fun rounds hr => ascend_place ⟨k, hk⟩ rounds run.forks fork (by show k < rounds; omega)
    refine ⟨_, hall, fun hfind hb => ?_⟩
    rw [find?_eq, Option.map_eq_some_iff] at hfind
    obtain ⟨i, hi, hplace⟩ := hfind
    rw [after_plain policy run newId result fork hi hplace hb]
    have hfound := ascend_place i f.ids.length run.forks fork (hlen ▸ i.isLt)
    rw [hplace, hall _ (Nat.le_refl _), Option.some.injEq] at hfound
    rw [hfound]

/-- The right path is the last one to come in, so that the branch joins and the run is over. -/
theorem after_follows_tree_halfway : Sample.flow.ids.Nodup ∧
    ∃ p went, Sample.flow.Has p ∧ p.id = "b" ∧ p.step.body.isPlain = true ∧
      Sample.flow.Returns Sample.halfway.run.forks (some "pg_1") p went ∧
      Sample.flow.outline.after {} Sample.halfway.run "" "b" [] (some "pg_1") = .ofOnward went ∧
      (Planned.ofOnward went).plan = { exhausted := true } := by
  have hp : Sample.flow.Has ⟨Step.ofType "b" .form, [Step.ofType "b" .form], 0,
      [⟨.path, "fork", "right"⟩]⟩ :=
    .inner (.main (k := 0) rfl) (List.mem_cons_of_mem _ List.mem_cons_self) rfl
  obtain ⟨went, hunique, hafter, -⟩ :=
    (after_follows_tree Sample.flow {} Sample.halfway.run "" [] (some "pg_1")).1
      (by decide) _ hp rfl
  refine ⟨by decide, _, went, hp, rfl, rfl, (hunique went).mpr rfl, hafter, ?_⟩
  rw [← hafter]
  cbv

end Flow

end Workflow
