import Workflow.Proofs.Growth

namespace Workflow

namespace Session

/-- A session of the same run, with no counter set back. -/
structure Ensues (s s' : Session) : Prop where
  id : s'.run.id = s.run.id
  drawn : s.log.drawn ≤ s'.log.drawn
  reviews : s.log.reviews ≤ s'.log.reviews

theorem Ensues.refl (s : Session) : s.Ensues s :=
  ⟨rfl, Nat.le_refl _, Nat.le_refl _⟩

theorem Ensues.trans {s s' s'' : Session} (h : s.Ensues s') (h' : s'.Ensues s'') : s.Ensues s'' :=
  ⟨h'.id.trans h.id, Nat.le_trans h.drawn h'.drawn, Nat.le_trans h.reviews h'.reviews⟩

theorem ensues_settle (s : Session) (p : Planned) : s.Ensues (s.settle p) :=
  ⟨rfl, Nat.le_add_right _ _, Nat.le_refl _⟩

theorem ensues_take (s : Session) (x : Execution) (result : Record) (now : Instant) :
    s.Ensues (s.take x result now) :=
  ⟨rfl, Nat.le_refl _, Nat.le_refl _⟩

theorem ensues_fail (s : Session) (execution reason : String) (now : Instant) :
    s.Ensues (s.fail execution reason now).1 := by
  unfold fail
  split
  · exact .refl s
  · split
    · exact ⟨rfl, Nat.le_refl _, Nat.le_refl _⟩
    · exact .refl s

theorem ensues_escalate (s : Session) (execution : String) (now : Instant) :
    s.Ensues (s.escalate execution now).1 := by
  unfold escalate
  split
  · exact .refl s
  · split
    · exact ⟨rfl, Nat.le_refl _, Nat.le_refl _⟩
    · exact .refl s

end Session

namespace Engine

variable (e : Engine) (flow : Flow) (now : Instant) (s : Session)

theorem reviews_resolve (step : Step) : (e.resolve s step).1.log.reviews = s.log.reviews := by
  unfold resolve
  split
  · rfl
  · split <;> rfl

theorem ensues_expect (step : Step) : s.Ensues (e.expect flow s step) := by
  refine ⟨?_, Nat.le_of_lt (e.drawn_expect flow s step), ?_⟩
  · obtain ⟨x, _, hrun⟩ := e.run_expect flow s step
    rw [hrun]
  · exact Nat.le_of_eq (e.reviews_resolve (s.draw 1) step).symm

theorem ensues_materialize (step : Step) : s.Ensues (e.materialize flow s step).1 := by
  unfold materialize
  split
  · exact .refl s
  · exact e.ensues_expect flow s step

theorem ensues_expectAll (steps : List Step) : s.Ensues (e.expectAll flow s steps) := by
  induction steps generalizing s with
  | nil => exact .refl s
  | cons step rest ih => exact (e.ensues_materialize flow s step).trans (ih _)

theorem ensues_ready : s.Ensues (e.ready flow now s) := by
  have hdated : s.Ensues (s.dated flow now) := ⟨rfl, Nat.le_refl _, Nat.le_refl _⟩
  exact hdated.trans (e.ensues_expectAll flow _ flow.steps)

theorem ensues_activate (step : Step) (fork : Option String) :
    s.Ensues (e.activate flow now s step fork).1 := by
  have hfirst := e.ensues_materialize flow s step
  unfold activate
  split
  rename_i s' i h
  rw [h] at hfirst
  split
  · exact hfirst
  · split
    · exact ⟨hfirst.id, hfirst.drawn, hfirst.reviews⟩
    · exact ⟨hfirst.id, hfirst.drawn, hfirst.reviews⟩

theorem ensues_pass (m : Motion) (x : Execution) (step : Step) (fork : Option String) :
    m.session.Ensues (e.pass flow now m x step fork).session := by
  cases h : m.budget with
  | zero =>
    rw [pass_zero h]
    exact .refl m.session
  | succ budget =>
    rw [pass_succ h]
    have hfinish : m.session.Ensues (m.session.finish x.id [] now) :=
      ⟨rfl, Nat.le_refl _, Nat.le_refl _⟩
    exact hfinish.trans (Session.ensues_settle _ _)

theorem ensues_follow (m : Motion) (a : Activation) :
    m.session.Ensues (e.follow flow now m a).session := by
  cases hf : flow.find? a.step with
  | none =>
    unfold follow
    simp only [hf]
    exact .refl m.session
  | some place =>
    have hactivate := e.ensues_activate flow now m.session place.step a.fork
    obtain ⟨x, hx, _⟩ := e.activate_starts flow now m.session place.step a.fork
    rw [follow_of hf hx]
    split
    · exact hactivate.trans (e.ensues_pass flow now { m with session := _ } x place.step a.fork)
    · exact hactivate

theorem ensues_followAll (as : List Activation) (m : Motion) :
    m.session.Ensues (e.followAll flow now m as).session := by
  induction as generalizing m with
  | nil => exact .refl m.session
  | cons a rest ih => exact (e.ensues_follow flow now m a).trans (ih _)

theorem ensues_drive (m : Motion) : m.session.Ensues (e.drive flow now m).session := by
  induction m using drive.induct e flow now with
  | case1 m h =>
    rw [drive_nil h]
    exact .refl m.session
  | case2 m plan rest h status hend =>
    rw [drive_cons h, hend]
    exact ⟨rfl, Nat.le_refl _, Nat.le_refl _⟩
  | case3 m plan rest h marked hend ih =>
    rw [drive_cons h, hend]
    have hmark : m.session.Ensues marked.session := ⟨rfl, Nat.le_refl _, Nat.le_refl _⟩
    exact (hmark.trans (e.ensues_followAll flow now plan.activations marked)).trans ih

theorem ensues_travel (plan : Plan) (advance : Advance) :
    s.Ensues (e.travel flow now s plan advance).session := by
  have hdrive := e.ensues_drive flow now (e.setOut s plan advance)
  unfold travel
  dsimp only
  split
  · exact ⟨hdrive.id, hdrive.drawn, hdrive.reviews⟩
  · exact hdrive

theorem ensues_automate (ids : List String) : s.Ensues (e.automate flow s ids) := by
  induction ids generalizing s with
  | nil => exact .refl s
  | cons id rest ih =>
    refine .trans ?_ (ih _)
    dsimp only
    split
    · split
      · split
        · exact ⟨rfl, Nat.le_refl _, Nat.le_refl _⟩
        · exact .refl s
      · exact .refl s
    · exact .refl s

theorem ensues_propagate (flags : Flags) (plan : Plan) (advance : Advance) :
    s.Ensues (e.propagate flow now flags s plan advance).1 := by
  have htravel := e.ensues_travel flow now s plan advance
  rw [propagate_fst]
  split
  · exact htravel.trans (e.ensues_automate flow _ _)
  · exact htravel

theorem ensues_start (flags : Flags) : s.Ensues (e.start flow now flags s).1 := by
  by_cases h : s.run.isActive = true → s.run.executions ≠ []
  · rw [start_again h]
    exact .refl s
  · obtain ⟨ha, hx⟩ := Classical.not_imp.mp h
    have hready := e.ensues_ready flow now s
    rw [start_fresh ha (not_not.mp hx)]
    split
    · exact ⟨hready.id, hready.drawn, hready.reviews⟩
    · exact hready.trans (e.ensues_propagate flow now _ flags _ _)

theorem ensues_accept (flags : Flags) (x : Execution) (result : Record) :
    s.Ensues (e.accept flow now flags s x result).1 := by
  have htake := s.ensues_take x result now
  cases h : flow.find? x.stepId with
  | none =>
    unfold accept
    simp only [h]
    exact htake
  | some place =>
    rw [accept_of h]
    exact (htake.trans (Session.ensues_settle _ _)).trans (e.ensues_propagate flow now _ flags _ _)

theorem ensues_review (step : Step) (result : Record) : s.Ensues (e.review s step result).1 := by
  unfold review
  split
  · exact .refl s
  · split
    · exact ⟨rfl, Nat.le_refl _, Nat.le_succ _⟩
    · exact .refl s

theorem ensues_judge (flags : Flags) (x : Execution) (result : Record) :
    s.Ensues (e.judge flow s flags x result).1 := by
  unfold judge
  split
  · split
    · exact .refl s
    · exact e.ensues_review s _ result
  · exact .refl s

theorem ensues_complete (flags : Flags) (execution : String) (result : Record) :
    s.Ensues (e.complete flow now flags s execution result).1 := by
  cases hx : s.run.find? execution with
  | none =>
    unfold complete
    simp only [hx]
    exact .refl s
  | some x =>
    have hjudge := e.ensues_judge flow s flags x result
    rw [complete_of result hx]
    split
    · exact .refl s
    · split
      · exact hjudge.trans (e.ensues_accept flow now _ flags x result)
      · exact hjudge

theorem ensues_conclude (flags : Flags) (x : Execution) (assignment : String) (result : Record) :
    s.Ensues (e.conclude flow now flags s x assignment result).1 := by
  have hcomplete := e.ensues_complete flow now s flags x.id (x.sharedResult result)
  unfold conclude
  dsimp only
  split
  · exact ⟨hcomplete.id, hcomplete.drawn, hcomplete.reviews⟩
  · split
    · exact ⟨hcomplete.id, hcomplete.drawn, hcomplete.reviews⟩
    · exact hcomplete

theorem ensues_submit (flags : Flags) (execution assignment : String) (result : Record) :
    s.Ensues (e.submit flow now flags s execution assignment result).1 := by
  cases htakes : s.run.takes? execution assignment with
  | none =>
    rw [(submit_refused htakes).2.1]
    exact .refl s
  | some x =>
    rw [submit_taken htakes]
    have hupdate : s.Ensues (s.update execution (x.submit assignment result now) now) :=
      ⟨rfl, Nat.le_refl _, Nat.le_refl _⟩
    split
    · exact hupdate.trans (e.ensues_conclude flow now _ flags _ assignment result)
    · exact ⟨hupdate.id, hupdate.drawn, hupdate.reviews⟩

theorem ensues_play (m : Move) : s.Ensues (e.play flow now s m).1 := by
  cases m with
  | start flags => exact e.ensues_start flow now s flags
  | complete execution result flags => exact e.ensues_complete flow now s flags execution result
  | submit execution assignment result flags =>
    exact e.ensues_submit flow now s flags execution assignment result
  | fail execution reason => exact s.ensues_fail execution reason now
  | escalate execution => exact s.ensues_escalate execution now

end Engine

end Workflow
