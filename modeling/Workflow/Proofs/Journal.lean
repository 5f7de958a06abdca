import Workflow.Proofs.SingleChange

/-!
The journal of a move: which steps started on its way, in order, and what was planned behind those
that were over. The functions here have the cases of the engine's own, and say of each case what
happens in it.
-/

namespace Workflow

inductive Happening where
  | starts (x : Execution) (step : Step)
  | plans (step : String) (plan : Plan)

abbrev Journal := List Happening

namespace Journal

/-- The executions that started, each with its step. -/
def starts (js : Journal) : List (Execution × Step) :=
  js.filterMap fun
    | .starts x step => some (x, step)
    | .plans _ _ => none

def plans (js : Journal) : List Plan :=
  js.filterMap fun
    | .starts _ _ => none
    | .plans _ plan => some plan

/-- The executions of steps that are over as soon as they start. -/
def passing (js : Journal) : List Execution :=
  (js.starts.filter fun p => p.2.body.isPassThrough).map Prod.fst

def waiting (js : Journal) : List Execution :=
  (js.starts.filter fun p => !p.2.body.isPassThrough).map Prod.fst

def startedIds (js : Journal) : List String :=
  js.starts.map fun p => p.1.id

variable (js js' : Journal) (x : Execution) (step : Step) (id : String) (plan : Plan)

@[simp] theorem starts_append : (js ++ js').starts = js.starts ++ js'.starts :=
  List.filterMap_append

@[simp] theorem plans_append : (js ++ js').plans = js.plans ++ js'.plans :=
  List.filterMap_append

@[simp] theorem passing_append : (js ++ js').passing = js.passing ++ js'.passing := by
  simp [passing]

@[simp] theorem waiting_append : (js ++ js').waiting = js.waiting ++ js'.waiting := by
  simp [waiting]

@[simp] theorem startedIds_append : (js ++ js').startedIds = js.startedIds ++ js'.startedIds := by
  simp [startedIds]

@[simp] theorem starts_nil : starts [] = [] := rfl

@[simp] theorem plans_nil : plans [] = [] := rfl

@[simp] theorem passing_nil : passing [] = [] := rfl

@[simp] theorem waiting_nil : waiting [] = [] := rfl

@[simp] theorem starts_cons_starts :
    starts (.starts x step :: js) = (x, step) :: js.starts := rfl

@[simp] theorem starts_cons_plans : starts (.plans id plan :: js) = js.starts := rfl

@[simp] theorem plans_cons_starts : plans (.starts x step :: js) = js.plans := rfl

@[simp] theorem plans_cons_plans : plans (.plans id plan :: js) = plan :: js.plans := rfl

/-- The identifiers of some of the executions that started. -/
theorem ids_sublist (p : Execution × Step → Bool) :
    (((js.starts.filter p).map Prod.fst).map Execution.id).Sublist js.startedIds := by
  rw [List.map_map]
  exact List.filter_sublist.map _

theorem mem_startedIds_iff :
    id ∈ js.startedIds ↔
      (∃ x ∈ js.passing, x.id = id) ∨ ∃ x ∈ js.waiting, x.id = id := by
  simp only [startedIds, passing, waiting, List.mem_map, List.mem_filter, Prod.exists,
    Bool.not_eq_eq_eq_not, Bool.not_true]
  constructor
  · rintro ⟨x, step, h, rfl⟩
    cases hp : step.body.isPassThrough with
    | true => exact .inl ⟨x, ⟨x, step, ⟨h, hp⟩, rfl⟩, rfl⟩
    | false => exact .inr ⟨x, ⟨x, step, ⟨h, hp⟩, rfl⟩, rfl⟩
  · rintro (⟨_, ⟨x, step, ⟨h, _⟩, rfl⟩, rfl⟩ |
      ⟨_, ⟨x, step, ⟨h, _⟩, rfl⟩, rfl⟩)
    · exact ⟨x, step, h, rfl⟩
    · exact ⟨x, step, h, rfl⟩

end Journal

namespace Engine

section Journal

variable (e : Engine) (flow : Flow) (now : Instant)

def passJournal (m : Motion) (x : Execution) (step : Step) (fork : Option String) : Journal :=
  match m.budget with
  | 0 => []
  | _ + 1 => [.plans step.id (e.follows flow (m.session.finish x.id [] now) step.id [] fork).plan]

def followJournal (m : Motion) (a : Activation) : Journal :=
  match flow.find? a.step with
  | none => []
  | some place =>
    match e.activate flow now m.session place.step a.fork with
    | (_, none) => []
    | (s, some x) =>
      .starts x place.step ::
        if place.step.body.isPassThrough then
          e.passJournal flow now { m with session := s } x place.step a.fork
        else []

def followAllJournal (m : Motion) : List Activation → Journal
  | [] => []
  | a :: rest => e.followJournal flow now m a ++ followAllJournal (e.follow flow now m a) rest

def driveJournal (m : Motion) : Journal :=
  match _h : m.pending with
  | [] => []
  | plan :: rest =>
    let marked := { m with pending := rest }.mark plan
    match plan.ending? with
    | some _ => []
    | none =>
      e.followAllJournal flow now marked plan.activations
        ++ driveJournal (e.followAll flow now marked plan.activations)
termination_by m.weight
decreasing_by
  rw [weight_followAll]
  simp [Motion.weight, Motion.mark, _h]

def startJournal (s : Session) : Journal :=
  if !s.run.isActive || !s.run.executions.isEmpty then []
  else
    match flow.steps with
    | [] => []
    | first :: _ =>
      e.driveJournal flow now
        (e.setOut (e.ready flow now s) { activations := [⟨first.id, none⟩] }
          { completed := true })

def acceptJournal (s : Session) (x : Execution) (result : Record) : Journal :=
  let s := s.take x result now
  match flow.find? x.stepId with
  | none => []
  | some _ =>
    let planned := e.follows flow s x.stepId result x.fork
    .plans x.stepId planned.plan ::
      e.driveJournal flow now (e.setOut (s.settle planned) planned.plan { completed := true })

def playJournal (s : Session) (m : Move) : Journal :=
  match e.accepts? flow now s m with
  | some (t, x, result) => e.acceptJournal flow now t x result
  | none =>
    match m with
    | .start _ => e.startJournal flow now s
    | .complete _ _ _ | .submit _ _ _ _ | .fail _ _ | .escalate _ => []

end Journal

variable {e : Engine} {flow : Flow} {now : Instant}

theorem passJournal_zero {m : Motion} {x : Execution} {step : Step} {fork : Option String}
    (h : m.budget = 0) : e.passJournal flow now m x step fork = [] := by
  unfold passJournal
  rw [h]

theorem passJournal_succ {m : Motion} {x : Execution} {step : Step} {fork : Option String}
    {budget : Nat} (h : m.budget = budget + 1) :
    e.passJournal flow now m x step fork =
      [.plans step.id (e.follows flow (m.session.finish x.id [] now) step.id [] fork).plan] := by
  unfold passJournal
  rw [h]

variable (e now) in
theorem followJournal_none (m : Motion) {a : Activation} (hf : flow.find? a.step = none) :
    e.followJournal flow now m a = [] ∧ e.follow flow now m a = m := by
  unfold followJournal follow
  rw [hf]
  exact ⟨rfl, rfl⟩

theorem followJournal_of {m : Motion} {a : Activation} {place : Place} {x : Execution}
    (hf : flow.find? a.step = some place)
    (hx : (e.activate flow now m.session place.step a.fork).2 = some x) :
    e.followJournal flow now m a =
      .starts x place.step ::
        if place.step.body.isPassThrough then
          e.passJournal flow now
            { m with session := (e.activate flow now m.session place.step a.fork).1 } x place.step
            a.fork
        else [] := by
  unfold followJournal
  simp only [hf]
  split
  · simp_all
  · rename_i s y h
    obtain rfl : x = y := by simpa [h] using hx.symm
    rw [h]

theorem driveJournal_nil {m : Motion} (h : m.pending = []) : e.driveJournal flow now m = [] := by
  rw [driveJournal]
  split
  · rfl
  · simp_all

theorem driveJournal_cons {m : Motion} {plan : Plan} {rest : List Plan}
    (h : m.pending = plan :: rest) :
    e.driveJournal flow now m =
      match plan.ending? with
      | some _ => []
      | none =>
        e.followAllJournal flow now ({ m with pending := rest }.mark plan) plan.activations
          ++ e.driveJournal flow now
            (e.followAll flow now ({ m with pending := rest }.mark plan) plan.activations) := by
  rw [driveJournal]
  split
  · simp_all
  · rename_i plan' rest' h'
    obtain ⟨rfl, rfl⟩ : plan = plan' ∧ rest = rest' := by simpa [h] using h'
    rfl

/-- What holds of a journal and of what it led to, and is kept by every plan that is taken up, by
every step that starts and by the end, holds of the whole way of a run. -/
theorem drive_keeps {P : Journal → Motion → Prop}
    (hmark : ∀ js m plan rest, m.pending = plan :: rest → plan.ending? = none → P js m →
      P js ({ m with pending := rest }.mark plan))
    (hfollow : ∀ js m a, P js m →
      P (js ++ e.followJournal flow now m a) (e.follow flow now m a))
    (hend : ∀ js m plan rest status, m.pending = plan :: rest → plan.ending? = some status →
      P js m → P js (({ m with pending := rest }.mark plan).endRun status now))
    (js : Journal) (m : Motion) (h : P js m) :
    P (js ++ e.driveJournal flow now m) (e.drive flow now m) := by
  have hall : ∀ (as : List Activation) (js : Journal) (m : Motion), P js m →
      P (js ++ e.followAllJournal flow now m as) (e.followAll flow now m as) := by
    intro as
    induction as with
    | nil =>
      intro js m h
      rw [followAllJournal, List.append_nil]
      exact h
    | cons a rest ih =>
      intro js m h
      rw [followAllJournal, ← List.append_assoc]
      exact ih _ _ (hfollow js m a h)
  induction m using drive.induct e flow now generalizing js with
  | case1 m hp =>
    rw [drive_nil hp, driveJournal_nil hp, List.append_nil]
    exact h
  | case2 m plan rest hp status hending =>
    rw [drive_cons hp, driveJournal_cons hp, hending, List.append_nil]
    exact hend js m plan rest status hp hending h
  | case3 m plan rest hp marked hending ih =>
    rw [drive_cons hp, driveJournal_cons hp, hending, ← List.append_assoc]
    exact ih _ (hall plan.activations js _ (hmark js m plan rest hp hending h))

end Engine

end Workflow
