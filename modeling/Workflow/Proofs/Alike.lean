import Workflow.Proofs.IdentifierKept

namespace Workflow

/-- How the counters of two engines keep step. What the second draws under a number from `first` on
and below `last`, the first has drawn `shift` numbers earlier. -/
structure Pace where
  shift : Nat
  first : Nat
  last : Nat
  reviews : Nat → Nat → Prop

namespace Engine

def assigneesOf (e : Engine) (step : Step) (r : Run) : List Assignee :=
  match e.advisers.assignees with
  | none => []
  | some answer =>
    if step.category = .humanAction then (answer step r).toOption.getD [] else []

/-- What is thought of a submission after so many reviews, as far as it counts. -/
def verdict (e : Engine) (reviews : Nat) (step : Step) (result : Record) : Verdict :=
  match e.advisers.reviewer with
  | none => .approved
  | some answer =>
    if step.body.isReviewed then (answer reviews step result).toOption.getD .approved else .approved

def counted (e : Engine) (reviews : Nat) : Nat :=
  if e.advisers.reviewer.isSome then reviews + 1 else reviews

structure Agrees (e e' : Engine) (p : Pace) : Prop where
  policy : e.policy = e'.policy
  catalogue : e.catalogue = e'.catalogue
  newId : ∀ kind n, p.first ≤ n + p.shift → n + p.shift < p.last →
    e.newId kind n = e'.newId kind (n + p.shift)
  assignees : ∀ step r, e.assigneesOf step r = e'.assigneesOf step r
  counted : ∀ n n', p.reviews n n' → p.reviews (e.counted n) (e'.counted n')

end Engine

structure Session.Alike (p : Pace) (s s' : Session) : Prop where
  run : s.run = s'.run
  drawn : s.log.drawn + p.shift = s'.log.drawn
  first : p.first ≤ s'.log.drawn
  reviews : p.reviews s.log.reviews s'.log.reviews

structure Motion.Alike (p : Pace) (m m' : Motion) : Prop where
  session : m.session.Alike p m'.session
  advance : m.advance = m'.advance
  budget : m.budget = m'.budget
  pending : m.pending = m'.pending
  exhausted : m.exhausted = m'.exhausted

theorem Execution.assign_congr {x : Execution} {f g : Nat → String} {as : List Assignee}
    (h : ∀ i < (x.assign g as).assignments.length, f i = g i) :
    x.assign f as = x.assign g as := by
  match as with
  | [] => rfl
  | [_] => rfl
  | a :: b :: rest =>
    unfold assign
    simp only [Execution.mk.injEq, true_and, and_true]
    refine List.ext_getElem (by simp) fun i hi hi' => ?_
    rw [List.getElem_mapIdx, List.getElem_mapIdx, h i (by simpa [assign] using hi')]

/-- Only a fork that opens takes the identifier that is drawn for it. -/
theorem Outline.after_unopened {o : Outline} {policy : EnginePolicy} {r : Run}
    {newId stepId : String}
    {result : Record} {fork : Option String}
    (h : (o.after policy r newId stepId result fork).opened = false) (other : String) :
    o.after policy r other stepId result fork = o.after policy r newId stepId result fork := by
  revert h
  unfold after
  split
  · exact fun _ => rfl
  · unfold afterPlace
    split
    all_goals try exact fun _ => rfl
    unfold afterBranch
    dsimp only
    split
    · exact fun _ => rfl
    · split
      · exact fun _ => rfl
      · split
        · exact fun _ => rfl
        · intro h
          cases h
    · split
      · exact fun _ => rfl
      · intro h
        cases h

namespace Engine

variable {e e' : Engine} {p : Pace} {flow : Flow} {now : Instant} {s s' : Session}

theorem newId_alike (agrees : e.Agrees e' p) (h : s.Alike p s') (kind : String) {i : Nat}
    (hlast : s'.log.drawn + i < p.last) :
    e.newId kind (s.log.drawn + i) = e'.newId kind (s'.log.drawn + i) := by
  have hnumber : s.log.drawn + i + p.shift = s'.log.drawn + i := by
    rw [← h.drawn]
    omega
  have hfirst := h.first
  rw [agrees.newId kind _ (by omega) (by omega), hnumber]

section Activation

variable (e flow s) in
/-- The execution that comes about when a step is expected. -/
def expected (step : Step) : Execution :=
  Execution.assign
    { id := e.nextId s "exec"
      stepId := step.id
      stepIndex := Session.position flow step.id
      quorum := step.body.quorum }
    (fun i => e.newId "asg" (s.log.drawn + 1 + i)) (e.assigneesOf step s.run)

theorem resolve_snd (step : Step) : (e.resolve s step).2 = e.assigneesOf step s.run := by
  unfold resolve assigneesOf
  cases e.advisers.assignees with
  | none => rfl
  | some answer =>
    dsimp only
    split <;> rfl

theorem expect_fields (e : Engine) (flow : Flow) (s : Session) (step : Step) :
    (e.expect flow s step).run =
        { s.run with executions := s.run.executions ++ [e.expected flow s step] } ∧
      (e.expect flow s step).log.drawn =
        s.log.drawn + 1 + (e.expected flow s step).assignments.length ∧
      (e.expect flow s step).log.reviews = s.log.reviews := by
  have hrun := e.run_resolve (s.draw 1) step
  have hdrawn := e.drawn_resolve (s.draw 1) step
  have hreviews := e.reviews_resolve (s.draw 1) step
  have hassignees := resolve_snd (e := e) (s := s.draw 1) step
  revert hrun hdrawn hreviews hassignees
  unfold expect expected
  dsimp only
  generalize e.resolve (s.draw 1) step = resolved
  obtain ⟨⟨run, drawn, reviews, notices⟩, assignees⟩ := resolved
  rintro rfl rfl rfl rfl
  exact ⟨rfl, rfl, rfl⟩

theorem expected_alike (agrees : e.Agrees e' p) (h : s.Alike p s') (step : Step)
    (hlast : s'.log.drawn + 1 + (e'.expected flow s' step).assignments.length ≤ p.last) :
    e.expected flow s step = e'.expected flow s' step := by
  have hid : e.nextId s "exec" = e'.nextId s' "exec" :=
    newId_alike agrees h "exec" (i := 0) (by omega)
  unfold expected at hlast ⊢
  rw [hid, h.run, agrees.assignees]
  refine Execution.assign_congr fun i hi => ?_
  rw [Nat.add_assoc, Nat.add_assoc]
  exact newId_alike agrees h "asg" (by omega)

/-- Two engines draw the same record, each under its own number. -/
theorem expect_alike (agrees : e.Agrees e' p) (h : s.Alike p s') (step : Step)
    (hlast : (e'.expect flow s' step).log.drawn ≤ p.last) :
    (e.expect flow s step).Alike p (e'.expect flow s' step) := by
  obtain ⟨hrun, hdrawn, hreviews⟩ := e.expect_fields flow s step
  obtain ⟨hrun', hdrawn', hreviews'⟩ := e'.expect_fields flow s' step
  have hx : e.expected flow s step = e'.expected flow s' step :=
    expected_alike agrees h step (by omega)
  refine ⟨?_, ?_, ?_, ?_⟩
  · rw [hrun, hrun', hx, h.run]
  · rw [hdrawn, hdrawn', hx, ← h.drawn]
    omega
  · have := h.first
    omega
  · rw [hreviews, hreviews']
    exact h.reviews

theorem materialize_alike (agrees : e.Agrees e' p) (h : s.Alike p s') (step : Step)
    (hlast : (e'.materialize flow s' step).1.log.drawn ≤ p.last) :
    (e.materialize flow s step).1.Alike p (e'.materialize flow s' step).1 ∧
      (e.materialize flow s step).2 = (e'.materialize flow s' step).2 := by
  unfold materialize at hlast ⊢
  rw [h.run]
  split
  · exact ⟨h, rfl⟩
  · rename_i hnone
    simp only [hnone] at hlast
    exact ⟨expect_alike agrees h step hlast, rfl⟩

/-- The execution that an activation starts, if it can start. -/
def starting? (t : Session) (i : Nat) (step : Step) (fork : Option String) (now : Instant) :
    Option Execution :=
  (t.run.executions[i]?).bind fun x => x.start? step fork t.run.dueAt now

theorem activate_fields (now : Instant) {t : Session} {i : Nat} {step : Step} (fork : Option String)
    (h : e.materialize flow s step = (t, i)) :
    (e.activate flow now s step fork).2 = starting? t i step fork now ∧
      (e.activate flow now s step fork).1.run =
        (match starting? t i step fork now with
        | none => t.run
        | some x => { t.run with
          executions := t.run.executions.set i x
          currentStepIndex := x.stepIndex
          lastActivityAt := some now }) ∧
      (e.activate flow now s step fork).1.log.drawn = t.log.drawn ∧
      (e.activate flow now s step fork).1.log.reviews = t.log.reviews := by
  unfold activate starting?
  rw [h]
  dsimp only
  generalize (t.run.executions[i]?).bind (fun x => x.start? step fork t.run.dueAt now) = found
  cases found with
  | none => exact ⟨rfl, rfl, rfl, rfl⟩
  | some x =>
    dsimp only
    split <;> exact ⟨rfl, rfl, rfl, rfl⟩

/-- They start the same steps. -/
theorem activate_alike (agrees : e.Agrees e' p) (h : s.Alike p s') (step : Step)
    (fork : Option String) (hlast : (e'.activate flow now s' step fork).1.log.drawn ≤ p.last) :
    (e.activate flow now s step fork).1.Alike p (e'.activate flow now s' step fork).1 ∧
      (e.activate flow now s step fork).2 = (e'.activate flow now s' step fork).2 := by
  rcases hm : e.materialize flow s step with ⟨t, i⟩
  rcases hm' : e'.materialize flow s' step with ⟨t', i'⟩
  obtain ⟨hfound, hrun, hdrawn, hreviews⟩ := activate_fields now fork hm
  obtain ⟨hfound', hrun', hdrawn', hreviews'⟩ := activate_fields now fork hm'
  have hlast' : (e'.materialize flow s' step).1.log.drawn ≤ p.last := by
    rw [hm']
    exact hdrawn' ▸ hlast
  obtain ⟨ht, hi⟩ := materialize_alike agrees h step hlast'
  rw [hm, hm'] at ht hi
  have hstarting : starting? t i step fork now = starting? t' i' step fork now := by
    unfold starting?
    rw [ht.run, show i = i' from hi]
  refine ⟨⟨?_, ?_, ?_, ?_⟩, by rw [hfound, hfound', hstarting]⟩
  · rw [hrun, hrun', hstarting, ht.run, show i = i' from hi]
  · rw [hdrawn, hdrawn']
    exact ht.drawn
  · rw [hdrawn']
    exact ht.first
  · rw [hreviews, hreviews']
    exact ht.reviews

end Activation

section Advance

/-- They plan the same, because they ask the planner the same. -/
theorem follows_alike (agrees : e.Agrees e' p) (h : s.Alike p s') {stepId : String}
    {result : Record}
    {fork : Option String}
    (hlast : (s'.settle (e'.follows flow s' stepId result fork)).log.drawn ≤ p.last) :
    e.follows flow s stepId result fork = e'.follows flow s' stepId result fork := by
  cases hopened : (e'.follows flow s' stepId result fork).opened with
  | false =>
    unfold follows at hopened ⊢
    rw [h.run, agrees.policy]
    exact Outline.after_unopened hopened _
  | true =>
    have hlt : s'.log.drawn < p.last := by
      simp only [Session.settle, Session.draw, hopened, if_true] at hlast
      exact hlast
    have hid : e.nextId s "pg" = e'.nextId s' "pg" := newId_alike agrees h "pg" (i := 0) hlt
    unfold follows
    rw [h.run, agrees.policy, hid]

theorem settle_alike (h : s.Alike p s') (planned : Planned) :
    (s.settle planned).Alike p (s'.settle planned) := by
  refine ⟨?_, ?_, ?_, h.reviews⟩
  · simp only [Session.settle, h.run]
  · simp only [Session.settle, Session.draw, ← h.drawn]
    omega
  · have := h.first
    simp only [Session.settle, Session.draw]
    omega

theorem modify_alike (h : s.Alike p s') (id : String) (change : Execution → Execution) :
    ({ s with run := s.run.modify id change } : Session).Alike p
      { s' with run := s'.run.modify id change } :=
  ⟨congrArg (Run.modify · id change) h.run, h.drawn, h.first, h.reviews⟩

variable {m m' : Motion}

theorem pass_alike (agrees : e.Agrees e' p) (h : m.Alike p m') (x : Execution) (step : Step)
    (fork : Option String)
    (hlast : (e'.pass flow now m' x step fork).session.log.drawn ≤ p.last) :
    (e.pass flow now m x step fork).Alike p (e'.pass flow now m' x step fork) := by
  cases hbudget : m'.budget with
  | zero => rwa [pass_zero hbudget, pass_zero (h.budget.trans hbudget)]
  | succ budget =>
    rw [pass_succ hbudget] at hlast ⊢
    rw [pass_succ (h.budget.trans hbudget)]
    have hfinish : (m.session.finish x.id [] now).Alike p (m'.session.finish x.id [] now) :=
      modify_alike h.session _ _
    rw [follows_alike agrees hfinish hlast]
    exact ⟨settle_alike hfinish _, h.advance, rfl, by rw [h.pending], h.exhausted⟩

theorem follow_alike (agrees : e.Agrees e' p) (h : m.Alike p m') (a : Activation)
    (hlast : (e'.follow flow now m' a).session.log.drawn ≤ p.last) :
    (e.follow flow now m a).Alike p (e'.follow flow now m' a) := by
  cases hf : flow.find? a.step with
  | none =>
    unfold follow
    simp only [hf]
    exact h
  | some place =>
    obtain ⟨x, hx, _⟩ := e'.activate_starts flow now m'.session place.step a.fork
    rw [follow_of hf hx] at hlast ⊢
    have hgrows : (e'.activate flow now m'.session place.step a.fork).1.log.drawn ≤ p.last := by
      refine Nat.le_trans ?_ hlast
      split
      · exact (e'.ensues_pass flow now { m' with session := _ } x place.step a.fork).drawn
      · exact Nat.le_refl _
    obtain ⟨hsession, hfound⟩ := activate_alike agrees h.session place.step a.fork hgrows
    rw [follow_of hf (hfound.trans hx)]
    split
    · rename_i hpass
      rw [if_pos hpass] at hlast
      have hmoved : Motion.Alike p { m with session := _ } { m' with session := _ } :=
        ⟨hsession, h.advance, h.budget, h.pending, h.exhausted⟩
      exact pass_alike agrees hmoved x place.step a.fork hlast
    · exact ⟨hsession, by rw [h.advance], h.budget, h.pending, h.exhausted⟩

theorem followAll_alike (agrees : e.Agrees e' p) (as : List Activation) (h : m.Alike p m')
    (hlast : (e'.followAll flow now m' as).session.log.drawn ≤ p.last) :
    (e.followAll flow now m as).Alike p (e'.followAll flow now m' as) := by
  induction as generalizing m m' with
  | nil => exact h
  | cons a rest ih =>
    have hrest := (e'.ensues_followAll flow now rest (e'.follow flow now m' a)).drawn
    exact ih (follow_alike agrees h a (Nat.le_trans hrest hlast)) hlast

theorem mark_alike (h : m.Alike p m') (plan : Plan) : (m.mark plan).Alike p (m'.mark plan) := by
  refine ⟨⟨?_, h.session.drawn, h.session.first, h.session.reviews⟩, h.advance, h.budget,
    h.pending, ?_⟩
  · simp only [Motion.mark, h.session.run]
  · simp only [Motion.mark, h.exhausted]

theorem endRun_alike (h : s.Alike p s') (status : TerminateStatus) :
    (s.endRun status now).Alike p (s'.endRun status now) := by
  refine ⟨?_, h.drawn, h.first, h.reviews⟩
  simp only [Session.endRun, Session.note, h.run]

theorem motion_endRun_alike (h : m.Alike p m') (status : TerminateStatus) :
    (m.endRun status now).Alike p (m'.endRun status now) :=
  ⟨endRun_alike h.session status, by simp only [Motion.endRun, h.advance], h.budget, h.pending,
    h.exhausted⟩

/-- They go the same way under a plan. -/
theorem drive_alike (agrees : e.Agrees e' p) (h : m.Alike p m')
    (hlast : (e'.drive flow now m').session.log.drawn ≤ p.last) :
    (e.drive flow now m).Alike p (e'.drive flow now m') := by
  induction m' using drive.induct e' flow now generalizing m with
  | case1 m' hnil =>
    rw [drive_nil hnil, drive_nil (h.pending.trans hnil)]
    exact h
  | case2 m' plan rest hcons status hend =>
    have hrest : Motion.Alike p { m with pending := rest } { m' with pending := rest } :=
      ⟨h.session, h.advance, h.budget, rfl, h.exhausted⟩
    rw [drive_cons hcons, drive_cons (h.pending.trans hcons), hend]
    exact motion_endRun_alike (mark_alike hrest plan) status
  | case3 m' plan rest hcons marked hend =>
    rename_i ih
    have hrest : Motion.Alike p { m with pending := rest } { m' with pending := rest } :=
      ⟨h.session, h.advance, h.budget, rfl, h.exhausted⟩
    have hmarked := mark_alike hrest plan
    rw [drive_cons hcons, hend] at hlast ⊢
    rw [drive_cons (h.pending.trans hcons), hend]
    have hdrive := (e'.ensues_drive flow now (e'.followAll flow now
      (Motion.mark { m' with pending := rest } plan) plan.activations)).drawn
    exact ih (followAll_alike agrees plan.activations hmarked (Nat.le_trans hdrive hlast)) hlast

theorem setOut_alike (agrees : e.Agrees e' p) (h : s.Alike p s') (plan : Plan) (advance : Advance) :
    (e.setOut s plan advance).Alike p (e'.setOut s' plan advance) :=
  ⟨h, rfl, by rw [setOut, setOut, agrees.policy], rfl, rfl⟩

theorem travel_alike (agrees : e.Agrees e' p) (h : s.Alike p s') (plan : Plan) (advance : Advance)
    (hlast : (e'.travel flow now s' plan advance).session.log.drawn ≤ p.last) :
    (e.travel flow now s plan advance).Alike p (e'.travel flow now s' plan advance) := by
  have hdrive := drive_alike agrees (setOut_alike agrees h plan advance)
    (Nat.le_trans (e'.grows_travel flow now s' plan advance).drawn hlast)
  unfold travel
  dsimp only
  rw [hdrive.exhausted, hdrive.session.run]
  split
  · exact motion_endRun_alike hdrive .completed
  · exact hdrive

theorem reviews_automate (ids : List String) :
    (e.automate flow s ids).log.reviews = s.log.reviews := by
  unfold automate
  induction ids generalizing s with
  | nil => rfl
  | cons id ids ih =>
    rw [List.foldl_cons, ih]
    split
    · split
      · split <;> rfl
      · rfl
    · rfl

theorem automate_alike (h : s.Alike p s') (ids : List String) :
    (e.automate flow s ids).Alike p (e'.automate flow s' ids) := by
  obtain ⟨hrun, hdrawn⟩ := e.run_automate flow s ids
  obtain ⟨hrun', hdrawn'⟩ := e'.run_automate flow s' ids
  refine ⟨?_, ?_, ?_, ?_⟩
  · rw [hrun, hrun']
    exact h.run
  · rw [hdrawn, hdrawn']
    exact h.drawn
  · rw [hdrawn']
    exact h.first
  · rw [reviews_automate, reviews_automate]
    exact h.reviews

theorem propagate_snd (flags : Flags) (plan : Plan) (advance : Advance) :
    (e.propagate flow now flags s plan advance).2 = (e.travel flow now s plan advance).advance := by
  unfold propagate
  exact (apply_ite Prod.snd _ _ _).trans (ite_self _)

/-- They make the same of a run once a step is over. -/
theorem propagate_alike (agrees : e.Agrees e' p) (h : s.Alike p s') (flags : Flags) (plan : Plan)
    (advance : Advance)
    (hlast : (e'.propagate flow now flags s' plan advance).1.log.drawn ≤ p.last) :
    (e.propagate flow now flags s plan advance).1.Alike p
        (e'.propagate flow now flags s' plan advance).1 ∧
      (e.propagate flow now flags s plan advance).2 =
        (e'.propagate flow now flags s' plan advance).2 := by
  have htravel := travel_alike agrees h plan advance
    (Nat.le_trans (e'.stays_propagate flow now s' flags plan advance).drawn hlast)
  rw [propagate_fst, propagate_fst, propagate_snd, propagate_snd, htravel.session.run,
    htravel.advance]
  refine ⟨?_, rfl⟩
  split
  · exact automate_alike htravel.session _
  · exact htravel.session

theorem expectAll_alike (agrees : e.Agrees e' p) (steps : List Step) (h : s.Alike p s')
    (hlast : (e'.expectAll flow s' steps).log.drawn ≤ p.last) :
    (e.expectAll flow s steps).Alike p (e'.expectAll flow s' steps) := by
  induction steps generalizing s s' with
  | nil => exact h
  | cons step rest ih =>
    have hrest := (e'.ensues_expectAll flow (e'.materialize flow s' step).1 rest).drawn
    exact ih (materialize_alike agrees h step (Nat.le_trans hrest hlast)).1 hlast

theorem ready_alike (agrees : e.Agrees e' p) (h : s.Alike p s')
    (hlast : (e'.ready flow now s').log.drawn ≤ p.last) :
    (e.ready flow now s).Alike p (e'.ready flow now s') := by
  refine expectAll_alike agrees flow.steps ⟨?_, h.drawn, h.first, h.reviews⟩ hlast
  simp only [Session.dated, h.run]

end Advance

section Moves

/-- They start a run alike. -/
theorem start_alike (agrees : e.Agrees e' p) (h : s.Alike p s') (flags : Flags)
    (hlast : (e'.start flow now flags s').1.log.drawn ≤ p.last) :
    (e.start flow now flags s).1.Alike p (e'.start flow now flags s').1 ∧
      (e.start flow now flags s).2 = (e'.start flow now flags s').2 := by
  by_cases hagain : s'.run.isActive = true → s'.run.executions ≠ []
  · rw [start_again hagain, start_again (h.run ▸ hagain)]
    exact ⟨h, rfl⟩
  · obtain ⟨ha, hx⟩ := Classical.not_imp.mp hagain
    have hx' : s'.run.executions = [] := not_not.mp hx
    rw [start_fresh ha hx'] at hlast ⊢
    rw [start_fresh (h.run ▸ ha) (h.run ▸ hx')]
    cases hsteps : flow.steps with
    | nil =>
      simp only [hsteps] at hlast
      exact ⟨endRun_alike (ready_alike agrees h hlast) .completed, rfl⟩
    | cons first rest =>
      simp only [hsteps] at hlast
      have hpropagate := (e'.ensues_propagate flow now (e'.ready flow now s') flags
        { activations := [⟨first.id, none⟩] } { completed := true }).drawn
      exact propagate_alike agrees (ready_alike agrees h (Nat.le_trans hpropagate hlast)) flags _ _
        hlast

theorem take_alike (h : s.Alike p s') (now : Instant) (x : Execution) (result : Record) :
    (s.take x result now).Alike p (s'.take x result now) := by
  refine ⟨?_, h.drawn, h.first, h.reviews⟩
  simp only [Session.take, Session.finish, Session.note, h.run]

/-- They accept the same submission alike. -/
theorem accept_alike (agrees : e.Agrees e' p) (h : s.Alike p s') (flags : Flags) (x : Execution)
    (result : Record) (hlast : (e'.accept flow now flags s' x result).1.log.drawn ≤ p.last) :
    (e.accept flow now flags s x result).1.Alike p (e'.accept flow now flags s' x result).1 ∧
      (e.accept flow now flags s x result).2 = (e'.accept flow now flags s' x result).2 := by
  have htake := take_alike h now x result
  cases hf : flow.find? x.stepId with
  | none =>
    unfold accept
    simp only [hf]
    exact ⟨htake, trivial⟩
  | some place =>
    rw [accept_of hf] at hlast ⊢
    rw [accept_of hf]
    have hsettle := (e'.ensues_propagate flow now ((s'.take x result now).settle
      (e'.follows flow (s'.take x result now) x.stepId result x.fork)) flags
      (e'.follows flow (s'.take x result now) x.stepId result x.fork).plan
      { completed := true }).drawn
    rw [follows_alike agrees htake (Nat.le_trans hsettle hlast)]
    exact propagate_alike agrees (settle_alike htake _) flags _ _ hlast

theorem review_fields (step : Step) (result : Record) :
    (e.review s step result).2 = e.verdict s.log.reviews step result ∧
      (e.review s step result).1.log.drawn = s.log.drawn ∧
      (e.review s step result).1.log.reviews =
        if step.body.isReviewed then e.counted s.log.reviews else s.log.reviews := by
  unfold review verdict counted
  cases e.advisers.reviewer with
  | none => exact ⟨rfl, rfl, (ite_self _).symm⟩
  | some answer =>
    dsimp only
    split <;> exact ⟨rfl, rfl, rfl⟩

/-- Two engines that judge the next submission alike, or do not come to judge one because no more
than `last` reviews are ever due. -/
def JudgeAlike (e e' : Engine) (s s' : Session) (last : Nat) : Prop :=
  (∀ step result, e.verdict s.log.reviews step result = e'.verdict s'.log.reviews step result) ∨
    (e.advisers.reviewer.isSome = e'.advisers.reviewer.isSome ∧ last ≤ s'.log.reviews)

theorem JudgeAlike.mono {last last' : Nat} (h : JudgeAlike e e' s s' last) (hle : last' ≤ last) :
    JudgeAlike e e' s s' last' :=
  h.imp_right fun ⟨hpresent, hlast⟩ => ⟨hpresent, Nat.le_trans hle hlast⟩

/-- Reviewers who answer alike come to the same verdict. -/
theorem JudgeAlike.verdict_eq {step : Step} {result : Record}
    (h : JudgeAlike e e' s s' (e'.review s' step result).1.log.reviews) :
    e.verdict s.log.reviews step result = e'.verdict s'.log.reviews step result := by
  rcases h with h | ⟨hpresent, hlast⟩
  · exact h step result
  · obtain ⟨_, _, hreviews⟩ := review_fields (e := e') (s := s') step result
    rw [hreviews] at hlast
    unfold verdict
    cases hreviewer : e'.advisers.reviewer with
    | none =>
      rw [hreviewer, Option.isSome_none, Option.isSome_eq_false_iff,
        Option.isNone_iff_eq_none] at hpresent
      rw [hpresent]
    | some answer =>
      -- A review would be one more than are ever due.
      by_cases hreviewed : step.body.isReviewed = true
      · rw [if_pos hreviewed] at hlast
        simp only [counted, hreviewer, Option.isSome_some, if_true] at hlast
        omega
      · simp only [if_neg hreviewed]
        cases e.advisers.reviewer <;> rfl

/-- They judge a submission alike. -/
theorem judge_alike (agrees : e.Agrees e' p) (h : s.Alike p s') (flags : Flags) (x : Execution)
    (result : Record)
    (judges : JudgeAlike e e' s s' (e'.judge flow s' flags x result).1.log.reviews) :
    (e.judge flow s flags x result).1.Alike p (e'.judge flow s' flags x result).1 ∧
      (e.judge flow s flags x result).2 = (e'.judge flow s' flags x result).2 := by
  unfold judge at judges ⊢
  split
  · rename_i place hplace
    simp only [hplace] at judges
    split
    · exact ⟨h, rfl⟩
    · rename_i hskip
      rw [if_neg hskip] at judges
      obtain ⟨hverdict, hdrawn, hreviews⟩ := review_fields (e := e) (s := s) place.step result
      obtain ⟨hverdict', hdrawn', hreviews'⟩ :=
        review_fields (e := e') (s := s') place.step result
      refine ⟨⟨?_, ?_, ?_, ?_⟩, ?_⟩
      · rw [run_review, run_review]
        exact h.run
      · rw [hdrawn, hdrawn']
        exact h.drawn
      · rw [hdrawn']
        exact h.first
      · rw [hreviews, hreviews']
        split
        · exact agrees.counted _ _ h.reviews
        · exact h.reviews
      · rw [hverdict, hverdict']
        exact judges.verdict_eq
  · exact ⟨h, rfl⟩

/-- They complete a step alike. -/
theorem complete_alike (agrees : e.Agrees e' p) (h : s.Alike p s') (flags : Flags)
    (execution : String) (result : Record)
    (judges : JudgeAlike e e' s s' (e'.complete flow now flags s' execution result).1.log.reviews)
    (hlast : (e'.complete flow now flags s' execution result).1.log.drawn ≤ p.last) :
    (e.complete flow now flags s execution result).1.Alike p
        (e'.complete flow now flags s' execution result).1 ∧
      (e.complete flow now flags s execution result).2 =
        (e'.complete flow now flags s' execution result).2 := by
  cases hx : s'.run.find? execution with
  | none =>
    unfold complete
    simp only [hx, h.run]
    exact ⟨h, trivial⟩
  | some x =>
    rw [complete_of result hx] at hlast judges ⊢
    rw [complete_of result (h.run ▸ hx), h.run]
    split
    · exact ⟨h, rfl⟩
    · rename_i hopen
      rw [if_neg hopen] at hlast judges
      obtain ⟨hjudge, hverdict⟩ := judge_alike agrees h flags x result
        (judges.mono (by
          split
          · exact (e'.ensues_accept flow now _ flags x result).reviews
          · exact Nat.le_refl _))
      rw [hverdict]
      split
      · rename_i happroved
        simp only [happroved] at hlast
        exact accept_alike agrees hjudge flags x result hlast
      · exact ⟨hjudge, rfl⟩

theorem conclude_alike (agrees : e.Agrees e' p) (h : s.Alike p s') (flags : Flags) (x : Execution)
    (assignment : String) (result : Record)
    (judges : JudgeAlike e e' s s'
      (e'.conclude flow now flags s' x assignment result).1.log.reviews)
    (hlast : (e'.conclude flow now flags s' x assignment result).1.log.drawn ≤ p.last) :
    (e.conclude flow now flags s x assignment result).1.Alike p
        (e'.conclude flow now flags s' x assignment result).1 ∧
      (e.conclude flow now flags s x assignment result).2 =
        (e'.conclude flow now flags s' x assignment result).2 := by
  have hreviews : (e'.complete flow now flags s' x.id (x.sharedResult result)).1.log.reviews ≤
      (e'.conclude flow now flags s' x assignment result).1.log.reviews := by
    unfold conclude
    dsimp only
    split
    · exact Nat.le_refl _
    · split <;> exact Nat.le_refl _
  obtain ⟨hcomplete, hadvance⟩ := complete_alike agrees h flags x.id (x.sharedResult result)
    (judges.mono hreviews)
    (Nat.le_trans (e'.stays_conclude flow now s' flags x assignment result).drawn hlast)
  unfold conclude
  dsimp only
  rw [hadvance]
  split
  · exact ⟨modify_alike hcomplete _ _, rfl⟩
  · split
    · refine ⟨modify_alike hcomplete _ _, ?_⟩
      rw [hcomplete.run]
    · exact ⟨hcomplete, rfl⟩

/-- What is answered to a submission that no execution takes. -/
theorem submit_refused_snd {flags : Flags} {execution assignment : String} {result : Record}
    (h : s.run.takes? execution assignment = none) :
    (e.submit flow now flags s execution assignment result).2 =
      match s.run.find? execution with
      | none => {}
      | some x =>
        if !x.isShared || !x.status.isCompletable then {}
        else { completed := x.submissions, total := x.assignments.length } := by
  unfold submit
  cases hx : s.run.find? execution with
  | none => rfl
  | some x =>
    dsimp only
    by_cases hclosed : (!x.isShared || !x.status.isCompletable) = true
    · rw [if_pos hclosed, if_pos hclosed]
    · rw [if_neg hclosed, if_neg hclosed]
      cases ha : x.findAssignment? assignment with
      | none => rfl
      | some a =>
        have hdone : a.status ≠ .pending := by
          intro hp
          simp only [Bool.or_eq_true, Bool.not_eq_true', not_or, Bool.not_eq_false] at hclosed
          have htakes := Run.takes?_eq_some_iff.mpr ⟨hx, hclosed.1, hclosed.2, a, ha, hp⟩
          exact Option.some_ne_none x (htakes.symm.trans h)
        dsimp only
        rw [if_pos hdone]

/-- They take a submission to a shared step alike. -/
theorem submit_alike (agrees : e.Agrees e' p) (h : s.Alike p s') (flags : Flags)
    (execution assignment : String) (result : Record)
    (judges : JudgeAlike e e' s s'
      (e'.submit flow now flags s' execution assignment result).1.log.reviews)
    (hlast : (e'.submit flow now flags s' execution assignment result).1.log.drawn ≤ p.last) :
    (e.submit flow now flags s execution assignment result).1.Alike p
        (e'.submit flow now flags s' execution assignment result).1 ∧
      (e.submit flow now flags s execution assignment result).2 =
        (e'.submit flow now flags s' execution assignment result).2 := by
  cases htakes : s'.run.takes? execution assignment with
  | none =>
    have htakes' : s.run.takes? execution assignment = none := h.run ▸ htakes
    rw [(submit_refused htakes).2.1, (submit_refused htakes').2.1, submit_refused_snd htakes,
      submit_refused_snd htakes', h.run]
    exact ⟨h, rfl⟩
  | some x =>
    rw [submit_taken htakes] at hlast judges ⊢
    rw [submit_taken (h.run ▸ htakes)]
    have hupdate : (s.update execution (x.submit assignment result now) now).Alike p
        (s'.update execution (x.submit assignment result now) now) :=
      ⟨by simp only [Session.update, h.run], h.drawn, h.first, h.reviews⟩
    split
    · rename_i hquorate
      rw [if_pos hquorate] at hlast judges
      exact conclude_alike agrees hupdate flags _ assignment result judges hlast
    · exact ⟨modify_alike hupdate _ _, rfl⟩

theorem fail_alike (h : s.Alike p s') (now : Instant) (execution reason : String) :
    (s.fail execution reason now).1.Alike p (s'.fail execution reason now).1 ∧
      (s.fail execution reason now).2 = (s'.fail execution reason now).2 := by
  unfold Session.fail
  rw [h.run]
  split
  · exact ⟨h, rfl⟩
  · split
    · exact ⟨⟨rfl, h.drawn, h.first, h.reviews⟩, rfl⟩
    · exact ⟨h, rfl⟩

theorem escalate_alike (h : s.Alike p s') (now : Instant) (execution : String) :
    (s.escalate execution now).1.Alike p (s'.escalate execution now).1 ∧
      (s.escalate execution now).2 = (s'.escalate execution now).2 := by
  unfold Session.escalate
  rw [h.run]
  split
  · exact ⟨h, rfl⟩
  · split
    · exact ⟨⟨rfl, h.drawn, h.first, h.reviews⟩, rfl⟩
    · exact ⟨h, rfl⟩

/-- Engines that agree make the same of every move. -/
theorem play_alike (agrees : e.Agrees e' p) (h : s.Alike p s') (move : Move)
    (judges : JudgeAlike e e' s s' (e'.play flow now s' move).1.log.reviews)
    (hlast : (e'.play flow now s' move).1.log.drawn ≤ p.last) :
    (e.play flow now s move).1.Alike p (e'.play flow now s' move).1 ∧
      (e.play flow now s move).2 = (e'.play flow now s' move).2 := by
  cases move with
  | start flags =>
    obtain ⟨hsession, hadvance⟩ := start_alike agrees h flags hlast
    exact ⟨hsession, congrArg Answer.advance hadvance⟩
  | complete execution result flags =>
    obtain ⟨hsession, hadvance⟩ := complete_alike agrees h flags execution result judges hlast
    exact ⟨hsession, congrArg Answer.advance hadvance⟩
  | submit execution assignment result flags =>
    obtain ⟨hsession, hanswer⟩ :=
      submit_alike agrees h flags execution assignment result judges hlast
    exact ⟨hsession, congrArg Answer.submission hanswer⟩
  | fail execution reason =>
    obtain ⟨hsession, hdone⟩ := fail_alike h now execution reason
    exact ⟨hsession, congrArg Answer.done hdone⟩
  | escalate execution =>
    obtain ⟨hsession, hdone⟩ := escalate_alike h now execution
    exact ⟨hsession, congrArg Answer.done hdone⟩

end Moves

end Engine

end Workflow
