import Workflow.Proofs.Course
import Workflow.Proofs.Joins.Chain

namespace Workflow

namespace Engine

section Legs

variable (e : Engine) (flow : Flow) (now : Instant)

def followsLegs (s : Session) (stepId : String) (result : Record) (fork : Option String) :
    List Leg :=
  flow.outline.afterLegs e.policy s.run (e.nextId s "pg") stepId result fork

def passLegs (t : Motion) (x : Execution) (step : Step) (fork : Option String) : List Leg :=
  match t.budget with
  | 0 => []
  | _ + 1 => e.followsLegs flow (t.session.finish x.id [] now) step.id [] fork

def followLegs (t : Motion) (a : Activation) : List Leg :=
  match flow.find? a.step with
  | none => []
  | some place =>
    match e.activate flow now t.session place.step a.fork with
    | (_, none) => []
    | (s, some x) =>
      if place.step.body.isPassThrough then
        e.passLegs flow now { t with session := s } x place.step a.fork
      else []

def followAllLegs (t : Motion) : List Activation → List Leg
  | [] => []
  | a :: rest => e.followLegs flow now t a ++ followAllLegs (e.follow flow now t a) rest

def driveLegs (t : Motion) : List Leg :=
  match _h : t.pending with
  | [] => []
  | plan :: rest =>
    let marked := { t with pending := rest }.mark plan
    match plan.ending? with
    | some _ => []
    | none =>
      e.followAllLegs flow now marked plan.activations
        ++ driveLegs (e.followAll flow now marked plan.activations)
termination_by t.weight
decreasing_by
  rw [weight_followAll]
  simp [Motion.weight, Motion.mark, _h]

def propagateLegs (s : Session) (plan : Plan) (advance : Advance) : List Leg :=
  e.driveLegs flow now (e.setOut s plan advance)

def startLegs (s : Session) : List Leg :=
  if !s.run.isActive || !s.run.executions.isEmpty then []
  else
    match flow.steps with
    | [] => []
    | first :: _ =>
      e.propagateLegs flow now (e.ready flow now s) { activations := [⟨first.id, none⟩] }
        { completed := true }

def acceptLegs (s : Session) (x : Execution) (result : Record) : List Leg :=
  let s := s.take x result now
  match flow.find? x.stepId with
  | none => []
  | some _ =>
    let planned := e.follows flow s x.stepId result x.fork
    e.followsLegs flow s x.stepId result x.fork
      ++ e.propagateLegs flow now (s.settle planned) planned.plan { completed := true }

def playLegs (s : Session) (m : Move) : List Leg :=
  match e.accepts? flow now s m with
  | some (t, x, result) => e.acceptLegs flow now t x result
  | none =>
    match m with
    | .start _ => e.startLegs flow now s
    | .complete _ _ _ | .submit _ _ _ _ | .fail _ _ | .escalate _ => []

end Legs

variable {e : Engine} {flow : Flow} {now : Instant}

/-- The legs behind a step that was under way account for the forks behind it. -/
theorem follows_chain {s s' : Session} {k : Mark} {standing : Standing} {m : Front}
    {rest : Multiset Strand}
    (unique : flow.ids.Nodup) (hm : Front.Reached flow e.policy m) (ht : s.Tidy e)
    (hforks : m.forks = s.run.forks) (hstrands : m.strands = Mark.strands s.run.marks + rest)
    (hkeeps : s.Keeps s') (hs : s.Closes s' k standing) (result : Record)
    (ids : e.DistinctIds (s'.settle (e.follows flow s' k.step result k.fork)).log.drawn) :
    Leg.Chain flow e.policy s.run.forks (e.followsLegs flow s' k.step result k.fork)
      (e.follows flow s' k.step result k.fork).forks := by
  have ht' := ht.closes hkeeps hs
  have hmirror := hm.mirror unique
  have hforks' : s'.run.forks = m.forks := hkeeps.forks.trans hforks.symm
  have hmem : k.strand ∈ m.strands := by
    rw [hstrands, hs.strands, Multiset.cons_add]
    exact Multiset.mem_cons_self _ _
  rw [← hkeeps.forks]
  refine Outline.chain_after unique ⟨?_, ?_⟩ ?_ ?_
  · rw [hforks']
    exact hmirror.distinct
  · intro g hg
    rw [hforks'] at hg ⊢
    exact hmirror.parent hg
  · rw [hforks']
    exact hmirror.strands _ hmem
  · intro hopened
    refine ht'.fresh_fork ids ?_
    have hdraws : (e.follows flow s' k.step result k.fork).opened = true := hopened
    simp [Session.settle, Session.draw, hdraws]

/-- The legs behind a step that nothing waits at account for the forks that change there. -/
theorem pass_chain {t : Motion} {m : Front} {lost : Multiset Strand} {todo : List Activation}
    {x : Execution} {step : Step} {fork : Option String} (unique : flow.ids.Nodup)
    (hm : Front.Reached flow e.policy m) (h : t.Shows e lost todo m)
    (hx : x.mark ∈ t.session.run.marks) (hmark : x.mark = ⟨x.id, step.id, fork, .underWay⟩)
    (ids : e.DistinctIds (e.pass flow now t x step fork).session.log.drawn) :
    Leg.Chain flow e.policy t.session.run.forks (e.passLegs flow now t x step fork)
      (e.pass flow now t x step fork).session.run.forks := by
  unfold passLegs
  cases hb : t.budget with
  | zero =>
    rw [pass_zero hb]
    exact .nil
  | succ budget =>
    rw [pass_succ hb] at ids ⊢
    have hchain := follows_chain unique hm h.tidy h.forks
      (h.strands.trans (Multiset.add_assoc _ _ _)) (t.session.keeps_finish x.id [] now)
      (h.tidy.closes_finish hx (by rw [hmark]) [] now) []
    simp only [hmark] at hchain
    exact hchain ids

/-- The legs of an activation account for the forks that change on it. -/
theorem follow_chain {t : Motion} {m : Front} {lost : Multiset Strand} {a : Activation}
    {todo : List Activation} (unique : flow.ids.Nodup) (hm : Front.Reached flow e.policy m)
    (h : t.Shows e lost (a :: todo) m)
    (ids : e.DistinctIds (e.follow flow now t a).session.log.drawn) :
    Leg.Chain flow e.policy t.session.run.forks (e.followLegs flow now t a)
      (e.follow flow now t a).session.run.forks := by
  obtain ⟨p, hf, hstep⟩ := find?_of_shows unique hm h
  obtain ⟨x, hx, hmark, hmem, hshows⟩ := activate_shows h hstep
    (ids.mono (grows_activate_follow hf).drawn)
  have hforks : (e.activate flow now t.session p.step a.fork).1.run.forks = t.session.run.forks :=
    (hshows t.advance).forks.symm.trans h.forks
  have hlegs : e.followLegs flow now t a =
      if p.step.body.isPassThrough then
        e.passLegs flow now { t with session := (e.activate flow now t.session p.step a.fork).1 } x
          p.step a.fork
      else [] := by
    unfold followLegs
    simp only [hf]
    split
    · simp_all
    · simp_all
  rw [follow_of hf hx] at ids ⊢
  rw [hlegs, ← hforks]
  by_cases hpass : p.step.body.isPassThrough = true
  · rw [if_pos hpass] at ids
    rw [if_pos hpass, if_pos hpass]
    exact pass_chain unique hm (hshows t.advance) hmem hmark ids
  · rw [if_neg hpass, if_neg hpass]
    exact .nil

theorem followAll_chain {lost : Multiset Strand} {as : List Activation} {t : Motion} {m : Front}
    (unique : flow.ids.Nodup) (hm : Front.Reached flow e.policy m) (h : t.Shows e lost as m)
    (ids : e.DistinctIds (e.followAll flow now t as).session.log.drawn) :
    Leg.Chain flow e.policy t.session.run.forks (e.followAllLegs flow now t as)
      (e.followAll flow now t as).session.run.forks := by
  induction as generalizing t m with
  | nil => exact .nil
  | cons a rest ih =>
    have ids' := ids.mono (e.grows_followAll flow now rest (e.follow flow now t a)).drawn
    obtain ⟨n, hturns, hn⟩ := follow_shows unique hm h ids'
    exact (follow_chain unique hm h ids').append (ih (hm.trans hturns) hn ids)

theorem driveLegs_nil {t : Motion} (h : t.pending = []) : e.driveLegs flow now t = [] := by
  rw [driveLegs]
  split
  · rfl
  · simp_all

theorem driveLegs_cons {t : Motion} {plan : Plan} {rest : List Plan}
    (h : t.pending = plan :: rest) :
    e.driveLegs flow now t =
      match plan.ending? with
      | some _ => []
      | none =>
        e.followAllLegs flow now ({ t with pending := rest }.mark plan) plan.activations
          ++ e.driveLegs flow now
            (e.followAll flow now ({ t with pending := rest }.mark plan) plan.activations) := by
  rw [driveLegs]
  split
  · simp_all
  · rename_i plan' rest' h'
    obtain ⟨rfl, rfl⟩ : plan = plan' ∧ rest = rest' := by simpa [h] using h'
    rfl

/-- The legs of all plans on the way account for the forks that change. -/
theorem drive_chain {lost : Multiset Strand} {t : Motion} {m : Front} (unique : flow.ids.Nodup)
    (hm : Front.Reached flow e.policy m) (h : t.Shows e lost [] m)
    (ids : e.DistinctIds (e.drive flow now t).session.log.drawn) :
    Leg.Chain flow e.policy t.session.run.forks (e.driveLegs flow now t)
      (e.drive flow now t).session.run.forks := by
  induction t using drive.induct e flow now generalizing m with
  | case1 t hp =>
    rw [drive_nil hp, driveLegs_nil hp]
    exact .nil
  | case2 t plan rest hp status hend =>
    rw [drive_cons hp, driveLegs_cons hp, hend]
    exact .nil
  | case3 t plan rest hp marked hend =>
    rename_i ih
    rw [drive_cons hp, hend] at ids ⊢
    rw [driveLegs_cons hp, hend]
    have ids' := ids.mono (e.grows_drive flow now
      (e.followAll flow now ({ t with pending := rest }.mark plan) plan.activations)).drawn
    have hmarked := h.mark hp hend
    obtain ⟨n, hturns, hn⟩ := followAll_shows unique hm hmarked ids'
    exact (followAll_chain unique hm hmarked ids').append (ih (hm.trans hturns) hn ids)

/-- The legs on the way of a run account for its forks. -/
theorem propagate_chain {lost : Multiset Strand} {s : Session} {m : Front} {plan : Plan}
    {advance : Advance} {flags : Flags} (unique : flow.ids.Nodup)
    (hm : Front.Reached flow e.policy m) (h : (e.setOut s plan advance).Shows e lost [] m)
    (ids : e.DistinctIds (e.propagate flow now flags s plan advance).1.log.drawn) :
    Leg.Chain flow e.policy s.run.forks (e.propagateLegs flow now s plan advance)
      (e.propagate flow now flags s plan advance).1.run.forks := by
  have hstays := e.stays_propagate flow now s flags plan advance
  have hend : (e.travel flow now s plan advance).session.run.forks =
      (e.drive flow now (e.setOut s plan advance)).session.run.forks := by
    unfold travel
    dsimp only
    split <;> rfl
  rw [hstays.forks, hend]
  exact drive_chain unique hm h
    ((ids.mono hstays.drawn).mono (e.grows_travel flow now s plan advance).drawn)

/-- The legs of an accepted submission account for the forks that change on it. -/
theorem accept_chain {lost : Multiset Strand} {s : Session} {m : Front} {flags : Flags}
    {x : Execution} {result : Record} (unique : flow.ids.Nodup)
    (hm : Front.Reached flow e.policy m) (h : s.Shows e lost m) (hx : s.run.find? x.id = some x)
    (hopen : x.status.isCompletable = true) (ha : s.run.isActive = true)
    (ids : e.DistinctIds (e.accept flow now flags s x result).1.log.drawn) :
    Leg.Chain flow e.policy s.run.forks (e.acceptLegs flow now s x result)
      (e.accept flow now flags s x result).1.run.forks := by
  obtain ⟨hkeeps, hcloses⟩ := closes_take hx hopen result now
  obtain ⟨p, hp, hid⟩ := has_step (hm.mirror unique) h.strands hcloses
  have hfind : flow.find? x.stepId = some p := (Flow.find?_eq_some_iff unique).mpr ⟨hp, hid⟩
  unfold acceptLegs
  rw [accept_of hfind] at ids ⊢
  simp only [hfind]
  have ids' := ids.mono (e.grows_propagate flow now ((s.take x result now).settle
    (e.follows flow (s.take x result now) x.stepId result x.fork)) flags
    (e.follows flow (s.take x result now) x.stepId result x.fork).plan { completed := true }).drawn
  obtain ⟨n, hturns, hset⟩ := settle_shows unique hm h hx hopen ha ids'
  have hfollows : Leg.Chain flow e.policy s.run.forks _ _ :=
    follows_chain unique hm h.tidy h.forks h.strands hkeeps hcloses result ids'
  exact hfollows.append (propagate_chain unique (hm.trans hturns) hset ids)

/-- The legs of a fresh run that starts account for its forks. -/
theorem start_chain {s : Session} {flags : Flags} (unique : flow.ids.Nodup) (hs : s.run.IsFresh)
    (ids : e.DistinctIds (e.start flow now flags s).1.log.drawn) :
    Leg.Chain flow e.policy [] (e.startLegs flow now s)
      (e.start flow now flags s).1.run.forks := by
  unfold startLegs
  rw [if_neg (by simp [hs.active, hs.executions])]
  rw [start_fresh hs.active hs.executions] at ids ⊢
  have hforks : (e.ready flow now s).run.forks = [] :=
    (e.keeps_ready flow now s).forks.trans hs.forks
  cases hsteps : flow.steps with
  | nil =>
    have hend : ((e.ready flow now s).endRun .completed now).run.forks = [] := hforks
    dsimp only
    rw [hend]
    exact .nil
  | cons first rest =>
    rw [hsteps] at ids
    have hset := ready_setOut hs hsteps
      (ids.mono (e.grows_propagate flow now (e.ready flow now s) flags _ _).drawn)
    rw [← hforks]
    exact propagate_chain unique .refl hset ids

/-- The legs of a move of a run that has started account for its forks. -/
theorem play_chain {s : Session} {lost : Multiset Strand} {f : Front} {m : Move}
    (unique : flow.ids.Nodup) (hf : Front.Reached flow e.policy f) (h : s.Shows e lost f)
    (hs : s.run.isActive = true → s.run.executions ≠ [])
    (ids : e.DistinctIds (e.play flow now s m).1.log.drawn) :
    Leg.Chain flow e.policy s.run.forks (e.playLegs flow now s m)
      (e.play flow now s m).1.run.forks := by
  unfold playLegs
  rcases e.play_cases flow now s m (fun _ _ => hs) with
    ⟨hnone, hstays⟩ | ⟨hfail, hkeeps, _⟩ |
    ⟨t, flags, x, result, hsome, ht, hx, hopen, ha, hstays⟩
  · rw [hnone, hstays.forks]
    cases m with
    | start flags =>
      have hno : e.startLegs flow now s = [] := by
        refine if_pos ?_
        cases ha : s.run.isActive with
        | false => rfl
        | true => simp [hs ha]
      dsimp only
      rw [hno]
      exact .nil
    | complete _ _ _ | submit _ _ _ _ | fail _ _ | escalate _ => exact .nil
  · obtain ⟨execution, reason, rfl⟩ := hfail
    rw [hkeeps.forks]
    exact .nil
  · rw [hsome, hstays.forks, ← ht.forks]
    exact accept_chain unique hf (h.stays ht) hx hopen ha (ids.mono hstays.drawn)

/-- The sessions that come about when a fresh run of a flow is started and moves follow, with the
legs up to there. -/
inductive Traces (e : Engine) (flow : Flow) : Session → List Leg → Prop where
  | start {s : Session} {now : Instant} {flags : Flags} (hs : s.run.IsFresh) :
      Traces e flow (e.play flow now s (.start flags)).1 (e.playLegs flow now s (.start flags))
  | move {s : Session} {legs : List Leg} {now : Instant} {m : Move} (hs : Traces e flow s legs) :
      Traces e flow (e.play flow now s m).1 (legs ++ e.playLegs flow now s m)

namespace Traces

variable {s : Session} {legs : List Leg}

theorem reaches (h : e.Traces flow s legs) : e.Reaches flow (fun _ => True) s := by
  induction h with
  | start hs => exact .start hs
  | move _ ih => exact .move ih trivial

/-- The legs of a run account for its forks. -/
theorem chain (unique : flow.ids.Nodup) (h : e.Traces flow s legs)
    (ids : e.DistinctIds s.log.drawn) : Leg.Chain flow e.policy [] legs s.run.forks := by
  induction h with
  | start hs => exact start_chain unique hs ids
  | @move s legs now m hs ih =>
    have ids' := ids.mono (e.grows_play flow now s m).drawn
    obtain ⟨hne, f, lost, hf, hshows, _⟩ := hs.reaches.shows unique ids'
    exact (ih ids').append (play_chain unique hf hshows hne ids)

end Traces

/-- Makes moves one after the other, each at its time. -/
def playAll (e : Engine) (flow : Flow) (s : Session) (moves : List (Instant × Move)) : Session :=
  moves.foldl (fun s m => (e.play flow m.1 s m.2).1) s

theorem grows_playAll (moves : List (Instant × Move)) (s : Session) :
    s.Grows (e.playAll flow s moves) := by
  induction moves generalizing s with
  | nil => exact .refl s
  | cons m rest ih => exact (e.grows_play flow m.1 s m.2).trans (ih _)

/-- A fork that has joined stays as it is whatever moves follow. -/
theorem Reaches.joined_lasts {s : Session} {moves : List (Instant × Move)} {k : Nat} {g : Fork}
    (unique : flow.ids.Nodup) (h : e.Reaches flow (fun _ => True) s)
    (ids : e.DistinctIds (e.playAll flow s moves).log.drawn)
    (hg : s.run.forks[k]? = some g) (hj : g.joined = true) :
    (e.playAll flow s moves).run.forks[k]? = some g := by
  induction moves generalizing s with
  | nil => exact hg
  | cons m rest ih =>
    have ids' := ids.mono (grows_playAll rest (e.play flow m.1 s m.2).1).drawn
    obtain ⟨hne, f, lost, hf, hshows, _⟩ :=
      h.shows unique (ids'.mono (e.grows_play flow m.1 s m.2).drawn)
    exact ih (.move h trivial) ids ((play_chain unique hf hshows hne ids').lasts hg hj)

/-- What a fork counts: the paths that have finished, and that it has joined once they suffice. -/
theorem Reaches.fork_counts {allowed : Move → Prop} {s : Session} (unique : flow.ids.Nodup)
    (paths : flow.PathsDiffer) (h : e.Reaches flow allowed s) (ids : e.DistinctIds s.log.drawn)
    {g : Fork} (hg : g ∈ s.run.forks) :
    g.finished.Nodup ∧ g.finished ⊆ g.paths ∧
      (g.joined = true ↔
        g.finished ≠ [] ∧ g.join.isSatisfied g.finished.length g.paths.length = true) := by
  obtain ⟨_, m, lost, hm, hshows, _⟩ := h.shows unique ids
  rw [← hshows.forks] at hg
  have hsound := hm.sound unique g hg
  have hle : (g.finished : Multiset String) ≤ (g.paths : Multiset String) :=
    (Multiset.le_add_right _ _).trans hsound.lanes
  have hsub : g.finished.Subperm g.paths := Multiset.coe_le.mp hle
  refine ⟨?_, hsub.subset, ?_⟩
  · exact Multiset.coe_nodup.mp
      (Multiset.nodup_of_le hle (Multiset.coe_nodup.mpr (hm.paths_nodup unique paths g hg)))
  · rw [hsound.joined, Fork.isEnough]
    simp

/-- A fork joins exactly once and exactly at its threshold. The run goes on behind its branch on
the one leg that joins the fork, and on no other. What is planned behind a step is what comes of the
strand where the last leg goes on, besides what the step starts by itself. Once it has joined, the
fork stays as it is. -/
theorem Traces.joins_once {s : Session} {legs : List Leg} (unique : flow.ids.Nodup)
    (paths : flow.PathsDiffer) (h : e.Traces flow s legs) (ids : e.DistinctIds s.log.drawn) :
    (∀ g ∈ s.run.forks,
      g.finished.Nodup ∧ g.finished ⊆ g.paths ∧
      (g.joined = true ↔
        g.finished ≠ [] ∧ g.join.isSatisfied g.finished.length g.paths.length = true) ∧
      legs.filterMap (Leg.resumes? g.id) = if g.joined then [g.continuation] else []) ∧
    (∀ id, id ∉ s.run.forks.map Fork.id → legs.filterMap (Leg.resumes? id) = []) ∧
    (∀ leg ∈ legs, leg.Right flow e.policy) ∧
    (∀ run newId stepId result fork i, flow.outline.indexOf? stepId = some i →
      (flow.outline.after e.policy run newId stepId result fork).plan =
        ((flow.outline.route e.policy ⟨result, run⟩ i).base fork newId).add
          (flow.outline.land
            (Leg.landing ((flow.outline.route e.policy ⟨result, run⟩ i).strand? fork stepId)
              (flow.outline.afterLegs e.policy run newId stepId result fork)))) ∧
    ∀ (k : Nat) (g : Fork) (moves : List (Instant × Move)), s.run.forks[k]? = some g →
      g.joined = true → e.DistinctIds (e.playAll flow s moves).log.drawn →
      (e.playAll flow s moves).run.forks[k]? = some g := by
  have hchain := h.chain unique ids
  refine ⟨fun g hg => ?_, fun id hid => hchain.resumes_nil hid,
    (hchain.right (by simp [Leg.Prompt])).1, ?_, ?_⟩
  · obtain ⟨hnodup, hsub, hjoined⟩ := h.reaches.fork_counts unique paths ids hg
    refine ⟨hnodup, hsub, hjoined, hchain.resumes ?_ hg⟩
    obtain ⟨_, m, lost, hm, hshows, _⟩ := h.reaches.shows unique ids
    rw [← hshows.forks]
    exact (hm.mirror unique).distinct
  · exact fun run newId stepId result fork i hi => Outline.plan_after unique hi
  · intro k g moves hg hj later
    exact h.reaches.joined_lasts unique later hg hj

theorem Traces.joins_once_ended : ∃ legs, Sample.engine.Traces Sample.flow Sample.ended legs ∧
    Sample.ended.run.forks.map (fun g => (g.finished, g.joined)) = [(["left", "right"], true)] ∧
    (∀ g ∈ Sample.ended.run.forks,
      legs.filterMap (Leg.resumes? g.id) = if g.joined then [g.continuation] else []) ∧
    ∀ leg ∈ legs, leg.Right Sample.flow Sample.engine.policy := by
  have htraces : Sample.engine.Traces Sample.flow Sample.ended _ :=
    .move (.move (.move (.start ⟨rfl, rfl, rfl⟩)))
  obtain ⟨hforks, _, hright, _, _⟩ :=
    Traces.joins_once (by decide) (by decide) htraces (Sample.distinctIds _)
  exact ⟨_, htraces, by cbv, fun g hg => (hforks g hg).2.2.2, hright⟩

end Engine

end Workflow
