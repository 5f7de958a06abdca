import Workflow.Proofs.Simulation

namespace Workflow

structure Run.IsFresh (r : Run) : Prop where
  active : r.isActive = true
  executions : r.executions = []
  forks : r.forks = []

/-- The sessions that come about when a fresh run of a flow is started and allowed moves follow, at
any times. -/
inductive Engine.Reaches (e : Engine) (flow : Flow) (allowed : Move → Prop) :
    Session → Prop where
  | start {s : Session} {now : Instant} {flags : Flags} (hs : s.run.IsFresh) :
      Reaches e flow allowed (e.play flow now s (.start flags)).1
  | move {s : Session} {now : Instant} {m : Move} (hs : Reaches e flow allowed s)
      (hm : allowed m) : Reaches e flow allowed (e.play flow now s m).1

theorem Session.Grows.ne_nil {s s' : Session} (h : s.Grows s') (hs : s.run.executions ≠ []) :
    s'.run.executions ≠ [] := by
  rw [← List.length_pos_iff] at hs ⊢
  exact Nat.lt_of_lt_of_le hs h.executions

namespace Engine

variable {e : Engine} {flow : Flow} {now : Instant} {s : Session}

/-- While nothing has started, steps can be expected one after the other. -/
theorem materialize_tidy {step : Step} (h : s.Tidy e)
    (hall : ∀ k ∈ s.run.marks, k.standing = .expected)
    (ids : e.DistinctIds (e.materialize flow s step).1.log.drawn) :
    (e.materialize flow s step).1.Tidy e ∧
      ∀ k ∈ (e.materialize flow s step).1.run.marks, k.standing = .expected := by
  rcases e.materialize_cases flow s step with ⟨i, x, he, _⟩ | ⟨hnone, he⟩
  · rw [he]
    exact ⟨h, hall⟩
  · rw [he] at ids ⊢
    have hmarks := e.marks_expect flow s step
    constructor
    · refine h.add ids (e.keeps_expect flow s step) (e.drawn_expect flow s step) hmarks rfl ?_
      exact fun j hj hstep => absurd (hall j hj) (hnone j hj hstep)
    · intro k hk
      rw [hmarks] at hk
      rcases List.mem_append.mp hk with hk | hk
      · exact hall k hk
      · rw [List.mem_singleton.mp hk]

theorem expectAll_tidy {steps : List Step} (h : s.Tidy e)
    (hall : ∀ k ∈ s.run.marks, k.standing = .expected)
    (ids : e.DistinctIds (e.expectAll flow s steps).log.drawn) :
    (e.expectAll flow s steps).Tidy e ∧
      ∀ k ∈ (e.expectAll flow s steps).run.marks, k.standing = .expected := by
  induction steps generalizing s with
  | nil => exact ⟨h, hall⟩
  | cons step rest ih =>
    have hgrows := e.grows_expectAll flow (e.materialize flow s step).1 rest
    obtain ⟨ht, hall'⟩ := materialize_tidy h hall (ids.mono hgrows.drawn)
    exact ih ht hall' ids

theorem materialize_ne_nil (step : Step) : (e.materialize flow s step).1.run.executions ≠ [] := by
  rcases e.materialize_cases flow s step with ⟨i, x, he, hx, _⟩ | ⟨_, he⟩
  · rw [he]
    intro hnil
    rw [hnil] at hx
    cases hx
  · obtain ⟨x, _, hrun⟩ := e.run_expect flow s step
    rw [he, hrun]
    simp

theorem ready_ne_nil (h : flow.steps ≠ []) : (e.ready flow now s).run.executions ≠ [] := by
  unfold ready
  cases hsteps : flow.steps with
  | nil => exact absurd hsteps h
  | cons first rest => exact (e.grows_expectAll flow _ rest).ne_nil (materialize_ne_nil first)

/-- A run that is ready to start is at no step. -/
theorem ready_shows (hs : s.run.IsFresh) (ids : e.DistinctIds (e.ready flow now s).log.drawn) :
    (e.ready flow now s).Shows e 0 ⟨0, 0, [], 0⟩ := by
  have hkeeps := e.keeps_ready flow now s
  obtain ⟨ht, hall⟩ : (e.ready flow now s).Tidy e ∧
      ∀ k ∈ (e.ready flow now s).run.marks, k.standing = .expected := by
    refine expectAll_tidy ⟨?_, ?_, ?_, ?_⟩ ?_ ids <;>
      simp [Session.dated, Run.marks, hs.executions, hs.forks]
  refine ⟨ht, ?_, ?_, ?_, ?_⟩
  · rw [hkeeps.forks, hs.forks]
  · have hnone : (e.ready flow now s).run.marks.filter (fun k => k.standing = .underWay) = [] :=
      List.filter_eq_nil_iff.mpr fun k hk => by simp [hall k hk]
    rw [Mark.strands, hnone]
    rfl
  · have hnone : (e.ready flow now s).run.marks.filter (fun k => k.standing ≠ .expected) = [] :=
      List.filter_eq_nil_iff.mpr fun k hk => by simp [hall k hk]
    rw [Mark.visited, hnone]
    exact le_refl _
  · rw [Run.isActive, hkeeps.status]
    exact ⟨fun _ => rfl, fun _ => hs.active⟩

/-- A run that starts with the first step sets out where its flow begins. -/
theorem ready_setOut {first : Step} {rest : List Step} (hs : s.run.IsFresh)
    (hsteps : flow.steps = first :: rest) (ids : e.DistinctIds (e.ready flow now s).log.drawn) :
    (e.setOut (e.ready flow now s) { activations := [⟨first.id, none⟩] }
      { completed := true }).Shows e 0 [] (Front.initial flow) := by
  have hready := ready_shows hs ids
  have hinitial : Front.initial flow =
      (⟨0, 0, [], 0⟩ : Front).carry { activations := [⟨first.id, none⟩] } := by
    rw [Front.carry_visits, Front.initial, hsteps]
  rw [hinitial]
  exact setOut_shows hready (hready.active.mpr rfl) _ _

/-- A fresh run starts where its flow begins. -/
theorem start_shows {flags : Flags} (unique : flow.ids.Nodup) (hs : s.run.IsFresh)
    (ids : e.DistinctIds (e.start flow now flags s).1.log.drawn) :
    ∃ m lost, Front.Reached flow e.policy m ∧ (e.start flow now flags s).1.Shows e lost m ∧
      ((e.start flow now flags s).1.run.isActive = true →
        lost = 0 ∧ (e.start flow now flags s).1.run.executions ≠ []) := by
  rw [start_fresh hs.active hs.executions] at ids ⊢
  cases hsteps : flow.steps with
  | nil =>
    rw [hsteps] at ids
    have hready : (e.ready flow now s).Shows e 0 _ := ready_shows hs ids
    have hinactive := (e.ready flow now s).isActive_endRun .completed now
    refine ⟨Front.initial flow, 0, .refl, ?_, fun ha => ?_⟩
    · have hinitial : Front.initial flow = ⟨0, 0, [], 1⟩ := by
        rw [Front.initial, hsteps]
      rw [hinitial]
      refine ⟨hready.tidy.frame rfl rfl (Nat.le_refl _), hready.forks, hready.strands,
        hready.visited, ?_⟩
      simp [hinactive]
    · exact absurd (hinactive.symm.trans ha) Bool.false_ne_true
  | cons first rest =>
    rw [hsteps] at ids
    have hgrows := e.grows_propagate flow now (e.ready flow now s) flags
      { activations := [⟨first.id, none⟩] } { completed := true }
    have hset := ready_setOut hs hsteps (ids.mono hgrows.drawn)
    obtain ⟨m, lost, hturns, hshows, hlost⟩ := propagate_shows unique .refl hset ids
    refine ⟨m, lost, hturns, hshows, fun ha => ⟨hlost ha, hgrows.ne_nil (ready_ne_nil ?_)⟩⟩
    rw [hsteps]
    exact List.cons_ne_nil _ _

/-- Every session that comes about is at a front that the flow can come to. As long as nothing fails
and the run goes on, no strand is lost. -/
theorem Reaches.shows {allowed : Move → Prop} (unique : flow.ids.Nodup)
    (h : e.Reaches flow allowed s) (ids : e.DistinctIds s.log.drawn) :
    (s.run.isActive = true → s.run.executions ≠ []) ∧
      ∃ m lost, Front.Reached flow e.policy m ∧ s.Shows e lost m ∧
        ((∀ id reason, ¬ allowed (.fail id reason)) → s.run.isActive = true → lost = 0) := by
  -- Identifiers are only ever drawn, so those of the end differ at every move before it.
  induction h with
  | @start s now flags hs =>
    obtain ⟨m, lost, hm, hshows, ha⟩ := start_shows unique hs ids
    exact ⟨fun h => (ha h).2, m, lost, hm, hshows, fun _ h => (ha h).1⟩
  | @move s now m hs hallowed ih =>
    have hgrows := e.grows_play flow now s m
    obtain ⟨hne, f, lost, hf, hshows, hlost⟩ := ih (ids.mono hgrows.drawn)
    rcases e.play_cases flow now s m (fun _ _ => hne) with
      ⟨_, hstays⟩ | ⟨hfail, hkeeps, k, hk⟩ |
      ⟨t, flags, x, result, _, ht, hx, hopen, ha, hstays⟩
    · have hsame : (e.play flow now s m).1.run.isActive = s.run.isActive := by
        rw [Run.isActive, hstays.status]
        rfl
      rw [hsame]
      exact ⟨fun ha => hgrows.ne_nil (hne ha), f, lost, hf, hshows.stays hstays, hlost⟩
    · obtain ⟨id, reason, rfl⟩ := hfail
      have hsame : (e.play flow now s (.fail id reason)).1.run.isActive = s.run.isActive := by
        rw [Run.isActive, hkeeps.status]
        rfl
      rw [hsame]
      exact ⟨fun ha => hgrows.ne_nil (hne ha), f, _, hf, hshows.closes hkeeps hk,
        fun hno => absurd hallowed (hno id reason)⟩
    · have hsame : t.run.isActive = s.run.isActive := by
        rw [Run.isActive, ht.status]
        rfl
      rw [hsame] at ha
      have ids' := ids.mono hstays.drawn
      obtain ⟨f', lost', hturns, hshows', hlost'⟩ :=
        accept_shows unique hf (hshows.stays ht) hx hopen (hsame.trans ha) ids'
      refine ⟨fun _ => hgrows.ne_nil (hne ha), f', lost', hf.trans hturns,
        hshows'.stays hstays, ?_⟩
      intro hno ha'
      rw [Run.isActive, hstays.status] at ha'
      rw [hlost' ha', hlost hno ha]

end Engine

end Workflow
