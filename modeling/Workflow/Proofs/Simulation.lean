import Mathlib.Algebra.Order.Group.Multiset
import Mathlib.Tactic.Abel
import Workflow.Proofs.Planner
import Workflow.Proofs.Tidy

namespace Workflow

/-- A session at a front. Strands are lost when a step fails and when a run ends with steps to
start. -/
structure Session.Shows (e : Engine) (lost : Multiset Strand) (s : Session) (m : Front) : Prop where
  tidy : s.Tidy e
  forks : m.forks = s.run.forks
  strands : m.strands = Mark.strands s.run.marks + lost
  visited : Mark.visited s.run.marks ≤ m.visited
  active : s.run.isActive = true ↔ m.ended = 0

namespace Motion

def planned (t : Motion) : List Activation :=
  t.pending.flatMap Plan.activations

/-- Whether the run ends once it has been moved. -/
def Ends (t : Motion) : Prop :=
  t.exhausted = true ∨ ∃ p ∈ t.pending, (p.exhausted || p.ending?.isSome) = true

/-- A run on its way at a front, with steps to start besides those that are pending. -/
structure Shows (e : Engine) (lost : Multiset Strand) (todo : List Activation) (t : Motion)
    (m : Front) : Prop where
  tidy : t.session.Tidy e
  forks : m.forks = t.session.run.forks
  strands : m.strands = Mark.strands t.session.run.marks +
    ((todo ++ t.planned).map Activation.strand : List Strand) + lost
  visited : Mark.visited t.session.run.marks + (todo ++ t.planned : List Activation) ≤ m.visited
  active : t.session.run.isActive = true
  ends : t.Ends ↔ 0 < m.ended

end Motion

namespace Session

variable {e : Engine} {lost : Multiset Strand} {s s' : Session} {m : Front}

theorem Shows.stays (h : s.Shows e lost m) (hs : s.Stays s') : s'.Shows e lost m := by
  refine ⟨h.tidy.frame hs.marks hs.forks hs.drawn, h.forks.trans hs.forks.symm,
    hs.marks ▸ h.strands, hs.marks ▸ h.visited, ?_⟩
  rw [← h.active, Run.isActive, hs.status]
  rfl

theorem Shows.closes {k : Mark} {standing : Standing} (h : s.Shows e lost m)
    (hkeeps : s.Keeps s') (hs : s.Closes s' k standing) : s'.Shows e (k.strand ::ₘ lost) m := by
  refine ⟨h.tidy.closes hkeeps hs, h.forks.trans hkeeps.forks.symm, ?_, ?_, ?_⟩
  · rw [h.strands, hs.strands, Multiset.cons_add, Multiset.add_cons]
  · rw [hs.visited]
    exact h.visited
  · rw [← h.active, Run.isActive, hkeeps.status]
    rfl

theorem isActive_endRun (s : Session) (status : TerminateStatus) (now : Instant) :
    (s.endRun status now).run.isActive = false := by
  cases status <;> rfl

end Session

/-- A run that ends loses what it had still to start. -/
theorem Motion.Shows.endRun {e : Engine} {lost : Multiset Strand} {t : Motion} {m : Front}
    {s : Session} {status : TerminateStatus} {now : Instant} (h : t.Shows e lost [] m)
    (hended : 0 < m.ended) (hmarks : s.run.marks = t.session.run.marks)
    (hforks : s.run.forks = t.session.run.forks) (hdrawn : t.session.log.drawn ≤ s.log.drawn) :
    (s.endRun status now).Shows e ((t.planned.map Activation.strand : List Strand) + lost) m := by
  refine ⟨h.tidy.frame hmarks hforks hdrawn, h.forks.trans hforks.symm, ?_, ?_, ?_⟩
  · change _ = Mark.strands s.run.marks + _
    rw [h.strands, hmarks, Multiset.add_assoc]
    rfl
  · change Mark.visited s.run.marks ≤ _
    rw [hmarks]
    exact le_trans (Multiset.le_add_right _ _) h.visited
  · rw [Session.isActive_endRun]
    simp only [Bool.false_eq_true, false_iff]
    omega

/-- The steps of a plan that does not end the run are the next to start. -/
theorem Motion.Shows.mark {e : Engine} {lost : Multiset Strand} {t : Motion} {m : Front}
    {plan : Plan} {rest : List Plan} (h : t.Shows e lost [] m) (hp : t.pending = plan :: rest)
    (hend : plan.ending? = none) :
    ({ t with pending := rest }.mark plan : Motion).Shows e lost plan.activations m := by
  refine ⟨h.tidy.frame rfl rfl (Nat.le_refl _), h.forks, ?_, ?_, h.active, ?_⟩
  · rw [h.strands]
    simp [Motion.planned, Motion.mark, hp]
    rfl
  · refine le_trans (le_of_eq ?_) h.visited
    simp [Motion.planned, Motion.mark, hp]
    rfl
  · rw [← h.ends]
    simp [Motion.Ends, Motion.mark, hp, hend, or_assoc]

namespace Engine

variable {e : Engine} {flow : Flow} {now : Instant}

/-- A step that was under way is one of the flow's. -/
theorem has_step {s s' : Session} {k : Mark} {standing : Standing} {m : Front}
    {rest : Multiset Strand}
    (hm : m.Mirror flow e.policy) (hstrands : m.strands = Mark.strands s.run.marks + rest)
    (hs : s.Closes s' k standing) : ∃ p, flow.Has p ∧ p.id = k.step := by
  have hmem : k.strand ∈ m.strands := by
    rw [hstrands, hs.strands, Multiset.cons_add]
    exact Multiset.mem_cons_self _ _
  obtain ⟨p, hp, hid, _⟩ := hm.strands _ hmem
  exact ⟨p, hp, hid⟩

/-- When a step is over, the front goes on as the plan says that follows the step. -/
theorem turns_follows {s s' : Session} {k : Mark} {standing : Standing} {m : Front}
    {rest : Multiset Strand}
    (unique : flow.ids.Nodup) (hm : Front.Reached flow e.policy m) (ht : s.Tidy e)
    (hforks : m.forks = s.run.forks) (hstrands : m.strands = Mark.strands s.run.marks + rest)
    (hkeeps : s.Keeps s') (hs : s.Closes s' k standing) (result : Record)
    (ids : e.DistinctIds (s'.settle (e.follows flow s' k.step result k.fork)).log.drawn) :
    Front.Turns flow e.policy m
      (({ m with strands := Mark.strands s'.run.marks + rest }.withForks
        (e.follows flow s' k.step result k.fork).forks).carry
        (e.follows flow s' k.step result k.fork).plan) ∧
      (s'.settle (e.follows flow s' k.step result k.fork)).Tidy e := by
  have ht' := ht.closes hkeeps hs
  have hmirror := hm.mirror unique
  obtain ⟨p, hp, hid⟩ := has_step hmirror hstrands hs
  let others : Front := { m with strands := Mark.strands s'.run.marks + rest }
  have hput : others.put ⟨p.id, k.fork, .here⟩ = m := by
    have he : (⟨p.id, k.fork, .here⟩ : Strand) ::ₘ others.strands = m.strands := by
      rw [hid, hstrands, hs.strands, Multiset.cons_add]
      rfl
    rw [Front.put, he]
  refine ⟨?_, ht'.settle (Outline.map_id_after _ _ _ _ _ _ _)⟩
  rw [← hid] at ids ⊢
  have hforks' : s'.run.forks = others.forks := hkeeps.forks.trans hforks.symm
  have hsends : others.Sends flow e.policy ⟨p.id, k.fork, .here⟩
      (e.follows flow s' p.id result k.fork) := by
    refine Front.sends_after unique hp hforks' ?_ (hput.symm ▸ hmirror)
    intro hopened
    rw [← hforks']
    refine ht'.fresh_fork ids ?_
    simp [Session.settle, Session.draw, follows, hopened]
  unfold Front.Sends at hsends
  rwa [hput] at hsends

/-- A step that is over as soon as it started is passed. -/
theorem pass_shows {t : Motion} {m : Front} {lost : Multiset Strand} {todo : List Activation}
    {x : Execution} {step : Step} {fork : Option String} (unique : flow.ids.Nodup)
    (hm : Front.Reached flow e.policy m) (h : t.Shows e lost todo m)
    (hx : x.mark ∈ t.session.run.marks) (hmark : x.mark = ⟨x.id, step.id, fork, .underWay⟩)
    (ids : e.DistinctIds (e.pass flow now t x step fork).session.log.drawn) :
    ∃ m', Front.Turns flow e.policy m m' ∧
      (e.pass flow now t x step fork).Shows e lost todo m' := by
  cases hb : t.budget with
  | zero =>
    rw [pass_zero hb]
    exact ⟨m, .refl, h⟩
  | succ budget =>
    rw [pass_succ hb] at ids ⊢
    have hkeeps := t.session.keeps_finish x.id [] now
    have hcloses : t.session.Closes (t.session.finish x.id [] now) x.mark .completed :=
      h.tidy.closes_finish hx (by rw [hmark]) [] now
    generalize t.session.finish x.id [] now = s at ids hkeeps hcloses ⊢
    have hturns := turns_follows unique hm h.tidy h.forks
      (h.strands.trans (Multiset.add_assoc _ _ _)) hkeeps hcloses []
    simp only [hmark] at hturns
    obtain ⟨hturns, htidy⟩ := hturns ids
    generalize e.follows flow s step.id [] fork = p at hturns htidy ⊢
    have hplanned : ({ t with
        session := s.settle p
        budget := budget
        pending := t.pending ++ [p.plan] } : Motion).planned = t.planned ++ p.plan.activations := by
      simp [Motion.planned]
    refine ⟨_, hturns, htidy, rfl, ?_, ?_, ?_, ?_⟩
    · rw [hplanned]
      simp only [Front.carry, Front.visit, Front.withForks, List.map_append, ← Multiset.coe_add]
      change _ = Mark.strands s.run.marks + _ + lost
      abel
    · rw [hplanned]
      calc Mark.visited s.run.marks + (todo ++ (t.planned ++ p.plan.activations) : List Activation)
        _ = p.plan.activations +
            (Mark.visited t.session.run.marks + (todo ++ t.planned : List Activation)) := by
          rw [hcloses.visited]
          simp only [← Multiset.coe_add]
          abel
        _ ≤ p.plan.activations + m.visited := Multiset.add_le_add_left h.visited
    · change s.run.isActive = true
      rw [Run.isActive, hkeeps.status]
      exact h.active
    · have hends := h.ends
      unfold Motion.Ends at hends ⊢
      simp only [List.mem_append, List.mem_singleton, or_and_right, exists_or, exists_eq_left,
        ← or_assoc]
      rw [hends]
      change _ ↔ 0 < m.ended + (p.plan.exhausted || p.plan.ending?.isSome).toNat
      cases p.plan.exhausted || p.plan.ending?.isSome <;> simp

/-- A step of a plan is one of the flow's. -/
theorem find?_of_shows {t : Motion} {m : Front} {lost : Multiset Strand} {a : Activation}
    {todo : List Activation} (unique : flow.ids.Nodup) (hm : Front.Reached flow e.policy m)
    (h : t.Shows e lost (a :: todo) m) : ∃ p, flow.find? a.step = some p ∧
      p.step.id = a.step := by
  have hmem : a.strand ∈ m.strands := by
    rw [h.strands]
    simp
  obtain ⟨p, hp, hid, _⟩ := (hm.mirror unique).strands _ hmem
  exact ⟨p, (Flow.find?_eq_some_iff unique).mpr ⟨hp, hid⟩, hid⟩

/-- A step of a plan that has started is no longer to start. -/
theorem activate_shows {t : Motion} {m : Front} {lost : Multiset Strand} {a : Activation}
    {todo : List Activation} {step : Step} (h : t.Shows e lost (a :: todo) m)
    (hstep : step.id = a.step)
    (ids : e.DistinctIds (e.activate flow now t.session step a.fork).1.log.drawn) :
    ∃ x, (e.activate flow now t.session step a.fork).2 = some x ∧
      x.mark = ⟨x.id, step.id, a.fork, .underWay⟩ ∧
      x.mark ∈ (e.activate flow now t.session step a.fork).1.run.marks ∧
      ∀ advance, ({ t with
        session := (e.activate flow now t.session step a.fork).1
        advance := advance } : Motion).Shows e lost todo m := by
  obtain ⟨x, hx, hmark, hkeeps, hstarts⟩ := e.activate_starts flow now t.session step a.fork
  have hunder : x.mark.standing = .underWay := by rw [hmark]
  refine ⟨x, hx, hmark, hstarts.mem, fun advance => ?_⟩
  generalize (e.activate flow now t.session step a.fork).1 = s at *
  have hstrands := hstarts.strands hunder
  have hvisited := hstarts.visited hunder
  have hstrand : x.mark.strand = a.strand := by
    rw [hmark, Mark.strand, hstep]
    rfl
  have hactivation : x.mark.activation = a := by
    rw [hmark, Mark.activation, hstep]
  refine ⟨h.tidy.starts ids hkeeps hunder hstarts, h.forks.trans hkeeps.forks.symm, ?_, ?_, ?_,
    h.ends⟩
  · rw [h.strands, hstrands, hstrand, List.cons_append, List.map_cons, ← Multiset.cons_coe,
      Multiset.add_cons, Multiset.cons_add, Multiset.cons_add, Multiset.cons_add]
    rfl
  · refine le_trans (le_of_eq ?_) h.visited
    rw [hvisited, hactivation, List.cons_append, ← Multiset.cons_coe, Multiset.add_cons,
      Multiset.cons_add]
    rfl
  · change s.run.isActive = true
    rw [Run.isActive, hkeeps.status]
    exact h.active

/-- Starting a step of a plan brings the run to where the plan says that it is. -/
theorem follow_shows {t : Motion} {m : Front} {lost : Multiset Strand} {a : Activation}
    {todo : List Activation} (unique : flow.ids.Nodup) (hm : Front.Reached flow e.policy m)
    (h : t.Shows e lost (a :: todo) m)
    (ids : e.DistinctIds (e.follow flow now t a).session.log.drawn) :
    ∃ m', Front.Turns flow e.policy m m' ∧ (e.follow flow now t a).Shows e lost todo m' := by
  obtain ⟨p, hf, hstep⟩ := find?_of_shows unique hm h
  obtain ⟨x, hx, hmark, hmem, hshows⟩ := activate_shows h hstep
    (ids.mono (grows_activate_follow hf).drawn)
  rw [follow_of hf hx] at ids ⊢
  by_cases hpass : p.step.body.isPassThrough = true
  · rw [if_pos hpass] at ids ⊢
    exact pass_shows unique hm (hshows t.advance) hmem hmark ids
  · rw [if_neg hpass]
    exact ⟨m, .refl, hshows _⟩

theorem followAll_shows {lost : Multiset Strand} {as : List Activation} {t : Motion} {m : Front}
    (unique : flow.ids.Nodup) (hm : Front.Reached flow e.policy m) (h : t.Shows e lost as m)
    (ids : e.DistinctIds (e.followAll flow now t as).session.log.drawn) :
    ∃ m', Front.Turns flow e.policy m m' ∧ (e.followAll flow now t as).Shows e lost [] m' := by
  induction as generalizing t m with
  | nil => exact ⟨m, .refl, h⟩
  | cons a rest ih =>
    have hgrows := e.grows_followAll flow now rest (e.follow flow now t a)
    obtain ⟨n, hturns, hn⟩ := follow_shows unique hm h (ids.mono hgrows.drawn)
    obtain ⟨m', hturns', hm'⟩ := ih (hm.trans hturns) hn ids
    exact ⟨m', hturns.trans hturns', hm'⟩

/-- Carrying out plans either brings them all under way or ends the run. -/
theorem drive_shows {lost : Multiset Strand} {t : Motion} {m : Front} (unique : flow.ids.Nodup)
    (hm : Front.Reached flow e.policy m) (h : t.Shows e lost [] m)
    (ids : e.DistinctIds (e.drive flow now t).session.log.drawn) :
    ∃ m', Front.Turns flow e.policy m m' ∧
      ((e.drive flow now t).pending = [] ∧ (e.drive flow now t).Shows e lost [] m' ∨
        (e.drive flow now t).session.run.isActive = false ∧
          ∃ lost', (e.drive flow now t).session.Shows e lost' m') := by
  induction t using drive.induct e flow now generalizing m with
  | case1 t hp =>
    rw [drive_nil hp]
    exact ⟨m, .refl, .inl ⟨hp, h⟩⟩
  | case2 t plan rest hp status hend =>
    rw [drive_cons hp, hend]
    have hended : 0 < m.ended := h.ends.mp (.inr ⟨plan, by simp [hp], by simp [hend]⟩)
    exact ⟨m, .refl, .inr ⟨Session.isActive_endRun _ _ _, _,
      h.endRun hended rfl rfl (Nat.le_refl _)⟩⟩
  | case3 t plan rest hp marked hend =>
    rename_i ih
    rw [drive_cons hp, hend] at ids ⊢
    have hmarked := h.mark hp hend
    have hgrows := e.grows_drive flow now
      (e.followAll flow now ({ t with pending := rest }.mark plan) plan.activations)
    obtain ⟨n, hturns, hn⟩ := followAll_shows unique hm hmarked (ids.mono hgrows.drawn)
    obtain ⟨m', hturns', hm'⟩ := ih (hm.trans hturns) hn ids
    exact ⟨m', hturns.trans hturns', hm'⟩

/-- A run under a plan shows the front that carries the plan. -/
theorem setOut_shows {lost : Multiset Strand} {s : Session} {m : Front} (h : s.Shows e lost m)
    (ha : s.run.isActive = true) (plan : Plan) (advance : Advance) :
    (e.setOut s plan advance).Shows e lost [] (m.carry plan) := by
  have hplanned : (e.setOut s plan advance).planned = plan.activations := by
    simp [Motion.planned, setOut]
  refine ⟨h.tidy, h.forks, ?_, ?_, ha, ?_⟩
  · rw [hplanned, Front.carry, Front.visit, h.strands, List.nil_append, ← Multiset.add_assoc,
      Multiset.add_comm (Multiset.ofList _) (Mark.strands _)]
    rfl
  · rw [hplanned, Front.carry, Front.visit, List.nil_append, Multiset.add_comm]
    exact Multiset.add_le_add_left h.visited
  · have hended := h.active.mp ha
    simp only [Motion.Ends, setOut, Front.carry, hended, List.mem_singleton, exists_eq_left,
      Bool.false_eq_true, false_or, Nat.zero_add]
    cases plan.exhausted || plan.ending?.isSome <;> simp

/-- Moving a run by a plan loses no strand unless the run ends. -/
theorem travel_shows {lost : Multiset Strand} {s : Session} {m : Front} {plan : Plan}
    {advance : Advance} (unique : flow.ids.Nodup) (hm : Front.Reached flow e.policy m)
    (h : (e.setOut s plan advance).Shows e lost [] m)
    (ids : e.DistinctIds (e.travel flow now s plan advance).session.log.drawn) :
    ∃ m' lost', Front.Turns flow e.policy m m' ∧
      (e.travel flow now s plan advance).session.Shows e lost' m' ∧
      ((e.travel flow now s plan advance).session.run.isActive = true → lost' = lost) := by
  obtain ⟨m', hturns, hdrive⟩ := drive_shows unique hm h
    (ids.mono (e.grows_travel flow now s plan advance).drawn)
  unfold travel
  dsimp only
  generalize e.drive flow now (e.setOut s plan advance) = t at hdrive ⊢
  rcases hdrive with ⟨hp, hdrive⟩ | ⟨hended, lost', hdrive⟩
  · have hends : t.exhausted = true ↔ 0 < m'.ended := by
      rw [← hdrive.ends]
      simp [Motion.Ends, hp]
    split
    · rename_i hend
      have hended := hends.mp (Bool.and_eq_true_iff.mp hend).1
      have hactive := t.session.isActive_endRun .completed now
      have hshows : (t.session.endRun .completed now).Shows e _ m' :=
        hdrive.endRun hended rfl rfl (Nat.le_refl _)
      exact ⟨m', _, hturns, hshows, fun ha => absurd (hactive.symm.trans ha) Bool.false_ne_true⟩
    · rename_i hend
      refine ⟨m', lost, hturns, ⟨hdrive.tidy, hdrive.forks, ?_, ?_, ?_⟩, fun _ => rfl⟩
      · rw [hdrive.strands]
        simp [Motion.planned, hp]
      · simpa [Motion.planned, hp] using hdrive.visited
      · rw [hdrive.active, Bool.and_true, hends] at hend
        simp only [hdrive.active, true_iff]
        omega
  · rw [if_neg (by simp [hended])]
    exact ⟨m', lost', hturns, hdrive, by simp [hended]⟩

theorem propagate_shows {lost : Multiset Strand} {s : Session} {m : Front} {plan : Plan}
    {advance : Advance} {flags : Flags} (unique : flow.ids.Nodup)
    (hm : Front.Reached flow e.policy m) (h : (e.setOut s plan advance).Shows e lost [] m)
    (ids : e.DistinctIds (e.propagate flow now flags s plan advance).1.log.drawn) :
    ∃ m' lost', Front.Turns flow e.policy m m' ∧
      (e.propagate flow now flags s plan advance).1.Shows e lost' m' ∧
      ((e.propagate flow now flags s plan advance).1.run.isActive = true → lost' = lost) := by
  have hstays := e.stays_propagate flow now s flags plan advance
  obtain ⟨m', lost', hturns, hshows, hactive⟩ :=
    travel_shows unique hm h (ids.mono hstays.drawn)
  refine ⟨m', lost', hturns, hshows.stays hstays, ?_⟩
  rwa [Run.isActive, hstays.status]

/-- A submission finishes an execution that was under way. -/
theorem closes_take {s : Session} {x : Execution} (hx : s.run.find? x.id = some x)
    (hopen : x.status.isCompletable = true) (result : Record) (now : Instant) :
    s.Keeps (s.take x result now) ∧ s.Closes (s.take x result now) x.mark .completed := by
  obtain ⟨_, pre, post, hmarks, hpre⟩ := Run.marks_of_find? hx
  have hfinish := Session.closes_finish result now hmarks hpre (x.isCompletable_iff.mp hopen)
  exact ⟨⟨rfl, rfl, Nat.le_refl _⟩, ⟨hfinish.underWay, hfinish.isOver, hfinish.marks⟩⟩

/-- A run whose plan behind a finished step is kept, and not carried out yet. -/
theorem settle_shows {lost : Multiset Strand} {s : Session} {m : Front} {x : Execution}
    {result : Record} {advance : Advance} (unique : flow.ids.Nodup)
    (hm : Front.Reached flow e.policy m) (h : s.Shows e lost m) (hx : s.run.find? x.id = some x)
    (hopen : x.status.isCompletable = true) (ha : s.run.isActive = true)
    (ids : e.DistinctIds ((s.take x result now).settle
      (e.follows flow (s.take x result now) x.stepId result x.fork)).log.drawn) :
    ∃ m', Front.Turns flow e.policy m m' ∧
      (e.setOut ((s.take x result now).settle
          (e.follows flow (s.take x result now) x.stepId result x.fork))
        (e.follows flow (s.take x result now) x.stepId result x.fork).plan advance).Shows
        e lost [] m' := by
  obtain ⟨hkeeps, hcloses⟩ := closes_take hx hopen result now
  obtain ⟨hturns, htidy⟩ :=
    turns_follows unique hm h.tidy h.forks h.strands hkeeps hcloses result
    ids
  have hshows : ((s.take x result now).settle
      (e.follows flow (s.take x result now) x.stepId result x.fork)).Shows e lost
      ({ m with strands := Mark.strands (s.take x result now).run.marks + lost }.withForks
        (e.follows flow (s.take x result now) x.stepId result x.fork).forks) := by
    refine ⟨htidy, rfl, rfl, ?_, h.active⟩
    change Mark.visited (s.take x result now).run.marks ≤ m.visited
    rw [hcloses.visited]
    exact h.visited
  exact ⟨_, hturns, setOut_shows hshows ha _ advance⟩

/-- Accepting a submission loses no strand unless the run ends. -/
theorem accept_shows {lost : Multiset Strand} {s : Session} {m : Front} {flags : Flags}
    {x : Execution} {result : Record} (unique : flow.ids.Nodup)
    (hm : Front.Reached flow e.policy m) (h : s.Shows e lost m) (hx : s.run.find? x.id = some x)
    (hopen : x.status.isCompletable = true) (ha : s.run.isActive = true)
    (ids : e.DistinctIds (e.accept flow now flags s x result).1.log.drawn) :
    ∃ m' lost', Front.Turns flow e.policy m m' ∧
      (e.accept flow now flags s x result).1.Shows e lost' m' ∧
      ((e.accept flow now flags s x result).1.run.isActive = true → lost' = lost) := by
  obtain ⟨_, hcloses⟩ := closes_take hx hopen result now
  obtain ⟨p, hp, hid⟩ := has_step (hm.mirror unique) h.strands hcloses
  rw [accept_of ((Flow.find?_eq_some_iff unique).mpr ⟨hp, hid⟩)] at ids ⊢
  have hgrows := e.grows_propagate flow now ((s.take x result now).settle
    (e.follows flow (s.take x result now) x.stepId result x.fork)) flags
    (e.follows flow (s.take x result now) x.stepId result x.fork).plan { completed := true }
  obtain ⟨n, hturns, hset⟩ := settle_shows unique hm h hx hopen ha (ids.mono hgrows.drawn)
  obtain ⟨m', lost', hturns', hshows', hactive⟩ :=
    propagate_shows unique (hm.trans hturns) hset ids
  exact ⟨m', lost', hturns.trans hturns', hshows', hactive⟩

end Engine

end Workflow
