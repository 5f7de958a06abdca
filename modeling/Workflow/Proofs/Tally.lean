import Workflow.Proofs.Forward
import Workflow.Proofs.Routes

namespace Workflow

namespace Run

def begun (r : Run) (stepId : String) : Nat :=
  (r.executions.filter fun x => x.stepId = stepId).length

def done (r : Run) (stepId : String) : Nat :=
  (r.executions.filter fun x => x.stepId = stepId ∧ x.status = .completed).length

/-- The first steps of the scopes of a step have begun as often as its completed executions say. -/
def Routes (policy : EnginePolicy) (r : Run) (s : Step) : Prop :=
  (s.spread policy).Bounds s.heads r.begun (r.done s.id)

end Run

namespace Mark

def begun (ks : List Mark) (id : String) : Nat :=
  ks.countP fun k => k.step = id

/-- How many marks are of a step that was completed. -/
def done (ks : List Mark) (id : String) : Nat :=
  ks.countP fun k => k.step = id ∧ k.standing = .completed

end Mark

namespace Run

variable {r : Run}

theorem begun_eq (r : Run) (id : String) : r.begun id = Mark.begun r.marks id := by
  rw [begun, Mark.begun, marks, List.countP_map, List.countP_eq_length_filter]
  rfl

theorem done_eq (r : Run) (id : String) : r.done id = Mark.done r.marks id := by
  rw [done, Mark.done, marks, List.countP_map, ← List.countP_eq_length_filter]
  apply List.countP_congr
  intro x _
  cases hs : x.status <;> simp [Execution.mark, StepStatus.standing, hs]

theorem map_id_marks (r : Run) : r.marks.map Mark.id = r.executionIds :=
  List.map_map

end Run

def Flow.Expects (f : Flow) (ks : List Mark) : Prop :=
  ∀ k ∈ ks, k.standing = .expected → f.OnMain k.step

/-- A mark may change that is not expected any more. -/
theorem Flow.Expects.replace {f : Flow} {pre post : List Mark} {j k : Mark}
    (h : f.Expects (pre ++ j :: post)) (hk : k.standing ≠ .expected) :
    f.Expects (pre ++ k :: post) := by
  intro i hi hst
  refine h i ?_ hst
  rcases List.mem_append.mp hi with hi | hi
  · exact List.mem_append_left _ hi
  · rcases List.mem_cons.mp hi with rfl | hi
    · exact absurd hst hk
    · exact List.mem_append_right _ (List.mem_cons_of_mem j hi)

namespace Session

/-- What a session adds to the executions of the first steps of scopes, while no owner of scopes is
completed. -/
structure Adds (f : Flow) (more : String → Nat) (s s' : Session) : Prop where
  expects : f.Expects s.run.marks → f.Expects s'.run.marks
  begun : f.Expects s.run.marks → ∀ o, f.Has o → ∀ id ∈ o.step.heads,
    Mark.begun s'.run.marks id = Mark.begun s.run.marks id + more id
  done : ∀ o, f.Has o → o.step.heads ≠ [] →
    Mark.done s'.run.marks o.id = Mark.done s.run.marks o.id

variable {f : Flow} {e : Engine} {s s' s'' : Session} {k : Mark} {standing : Standing}
  {more more' : String → Nat}

theorem Adds.of_marks (h : s'.run.marks = s.run.marks) : s.Adds f (fun _ => 0) s' :=
  ⟨fun hs => h ▸ hs, fun _ _ _ _ _ => by rw [h]; rfl, fun _ _ _ => by rw [h]⟩

theorem Adds.trans (h : s.Adds f more s') (h' : s'.Adds f more' s'') :
    s.Adds f (fun id => more id + more' id) s'' := by
  refine ⟨fun hs => h'.expects (h.expects hs), fun hs o ho id hid => ?_, fun o ho hne => ?_⟩
  · rw [h'.begun (h.expects hs) o ho id hid, h.begun hs o ho id hid, Nat.add_assoc]
  · rw [h'.done o ho hne, h.done o ho hne]

theorem Adds.congr (h : s.Adds f more s')
    (hmore : ∀ o, f.Has o → ∀ id ∈ o.step.heads, more' id = more id) : s.Adds f more' s' :=
  ⟨h.expects, fun hs o ho id hid => by rw [h.begun hs o ho id hid, hmore o ho id hid], h.done⟩

theorem Closes.expects (h : s.Closes s' k standing) (hs : f.Expects s.run.marks) :
    f.Expects s'.run.marks := by
  obtain ⟨pre, post, hm, hm'⟩ := h.marks
  rw [hm] at hs
  rw [hm']
  exact hs.replace (Standing.ne_of_isOver h.isOver).1

theorem Closes.begun (h : s.Closes s' k standing) (id : String) :
    Mark.begun s'.run.marks id = Mark.begun s.run.marks id := by
  obtain ⟨pre, post, hm, hm'⟩ := h.marks
  simp only [hm, hm', Mark.begun, List.countP_append, List.countP_cons]

theorem Closes.done (h : s.Closes s' k standing) (id : String) :
    Mark.done s'.run.marks id =
      Mark.done s.run.marks id + if k.step = id ∧ standing = .completed then 1 else 0 := by
  obtain ⟨pre, post, hm, hm'⟩ := h.marks
  have hopen : k.standing ≠ .completed := by simp [h.underWay]
  simp only [hm, hm', Mark.done, List.countP_append, List.countP_cons, hopen, and_false,
    decide_false, Bool.false_eq_true, if_false, decide_eq_true_eq]
  omega

/-- A step that gets under way was expected on the main path, or adds an execution. -/
theorem Starts.adds (unique : f.ids.Nodup) (h : s.Starts e s' k) (hk : k.standing = .underWay) :
    s.Adds f (fun id => if k.step = id then 1 else 0) s' := by
  cases h with
  | @expected pre post j hm _ hstep hj hm' =>
    refine ⟨fun hs => ?_, fun hs o ho id hid => ?_, fun o ho _ => ?_⟩
    · rw [hm] at hs
      rw [hm']
      exact hs.replace (by simp [hk])
    · have hmain : f.OnMain k.step := hstep ▸ hs j (by simp [hm]) hj
      have hother : k.step ≠ id := by
        rintro rfl
        exact hmain.not_head unique ho hid
      simp only [hm, hm', Mark.begun, List.countP_append, List.countP_cons, hstep, if_neg hother]
      rfl
    · simp [hm, hm', Mark.done, hk, hj]
  | anew _ _ _ hm' =>
    refine ⟨fun hs i hi hst => ?_, fun _ o ho id hid => ?_, fun o ho _ => ?_⟩
    · rw [hm', List.mem_append, List.mem_singleton] at hi
      rcases hi with hi | rfl
      · exact hs i hi hst
      · simp [hk] at hst
    · simp [hm', Mark.begun, List.countP_append]
    · simp [hm', Mark.done, hk]

/-- A step over as soon as it started owns no scopes. -/
theorem Closes.adds {p : Place} (unique : f.ids.Nodup) (h : s.Closes s' k standing) (hp : f.Has p)
    (hpass : p.step.body.isPassThrough = true) (hid : p.id = k.step) :
    s.Adds f (fun _ => 0) s' := by
  refine ⟨h.expects, fun _ o ho id _ => h.begun id, fun o ho hne => ?_⟩
  have hother : k.step ≠ o.id := by
    intro he
    rw [ho.eq_of_id unique hp (he.symm.trans hid.symm), Step.heads_of_isPassThrough hpass] at hne
    exact hne rfl
  rw [h.done, if_neg (by simp [hother])]
  rfl

end Session

/-- No pending plan starts the first step of a scope. -/
def Motion.Plain (f : Flow) (t : Motion) : Prop :=
  ∀ plan ∈ t.pending, ∀ o, f.Has o →
    ∀ id ∈ o.step.heads, Activation.begun plan.activations id = 0

namespace Engine

variable {e : Engine} {flow : Flow} {now : Instant} (unique : flow.ids.Nodup)
include unique

/-- A step that is passed starts no first step of a scope, and plans none. -/
theorem pass_adds {t : Motion} {x : Execution} {p : Place} {fork : Option String}
    (hp : flow.Has p) (hpass : p.step.body.isPassThrough = true)
    (hx : x.mark ∈ t.session.run.marks)
    (hmark : x.mark = ⟨x.id, p.step.id, fork, .underWay⟩)
    (differ : t.session.run.executionIds.Nodup) (hplain : t.Plain flow) :
    t.session.Adds flow (fun _ => 0) (e.pass flow now t x p.step fork).session ∧
      (e.pass flow now t x p.step fork).Plain flow := by
  cases hb : t.budget with
  | zero =>
    rw [pass_zero hb]
    exact ⟨.of_marks rfl, hplain⟩
  | succ budget =>
    rw [pass_succ hb]
    have hcloses : t.session.Closes (t.session.finish x.id [] now) x.mark .completed :=
      Session.closes_of_nodup (by rwa [Run.map_id_marks]) hx (by rw [hmark]) [] now
    refine ⟨?_, fun plan hplan o ho id hid => ?_⟩
    · have hsettle : (t.session.finish x.id [] now).Adds flow (fun _ => 0)
          ((t.session.finish x.id [] now).settle
            (e.follows flow (t.session.finish x.id [] now) p.step.id [] fork)) := .of_marks rfl
      exact (hcloses.adds unique hp hpass (by rw [hmark]; rfl)).trans hsettle
    · rcases List.mem_append.mp hplan with hold | hnew
      · exact hplain plan hold o ho id hid
      · have hother : o.id ≠ p.id := by
          intro he
          rw [ho.eq_of_id unique hp he, Step.heads_of_isPassThrough hpass] at hid
          cases hid
        have hbounds : (o.step.spread e.policy).Bounds o.step.heads
            (Activation.begun plan.activations) (if o.id = p.id then 1 else 0) := by
          rw [List.mem_singleton.mp hnew]
          exact Outline.bounds_after unique hp ho _ _ [] fork
        rw [if_neg hother] at hbounds
        exact hbounds.eq_zero id hid

/-- A step of a plan that is started adds an execution of it, if it is the first of a scope. -/
theorem follow_adds {t : Motion} {a : Activation}
    (differ : (e.follow flow now t a).session.run.executionIds.Nodup) (hplain : t.Plain flow) :
    t.session.Adds flow (Activation.begun [a]) (e.follow flow now t a).session ∧
      (e.follow flow now t a).Plain flow := by
  cases hf : flow.find? a.step with
  | none =>
    have hsame : e.follow flow now t a = t := by
      unfold follow
      simp only [hf]
    have hnone : ∀ o, flow.Has o → ∀ id ∈ o.step.heads, Activation.begun [a] id = 0 := by
      intro o ho id hid
      refine Activation.begun_eq_zero fun b hb => ?_
      rw [List.mem_singleton.mp hb]
      rintro rfl
      obtain ⟨p, hp⟩ := ho.head_place unique hid
      simp [hf] at hp
    rw [hsame]
    exact ⟨(Session.Adds.of_marks rfl).congr hnone, hplain⟩
  | some p =>
    obtain ⟨hp, hid⟩ := (Flow.find?_eq_some_iff unique).mp hf
    obtain ⟨x, hx, hmark, _, hstarts⟩ := e.activate_starts flow now t.session p.step a.fork
    have hstep : x.mark.step = a.step := by
      rw [hmark]
      exact hid
    have hactivate : t.session.Adds flow (Activation.begun [a])
        (e.activate flow now t.session p.step a.fork).1 := by
      refine (hstarts.adds unique (by rw [hmark])).congr fun o _ id _ => ?_
      rw [hstep]
      simp [Activation.begun, List.count_cons]
    rw [follow_of hf hx] at differ ⊢
    by_cases hpass : p.step.body.isPassThrough = true
    · rw [if_pos hpass] at differ ⊢
      obtain ⟨y, hy, hmem, hopen, _⟩ := e.activate_carries flow now t.session p.step a.fork
      obtain rfl : x = y := by simpa [hx] using hy
      have hproceeds := e.proceeds_pass flow now
        { t with session := (e.activate flow now t.session p.step a.fork).1 } p.step
          a.fork hmem hopen
      obtain ⟨hpassed, hplain'⟩ := pass_adds unique hp hpass hstarts.mem hmark
        (hproceeds.ids.sublist.nodup differ) hplain
      exact ⟨hactivate.trans hpassed, hplain'⟩
    · rw [if_neg hpass]
      exact ⟨hactivate, hplain⟩

theorem followAll_adds {as : List Activation} {t : Motion}
    (differ : (e.followAll flow now t as).session.run.executionIds.Nodup)
    (hplain : t.Plain flow) :
    t.session.Adds flow (Activation.begun as) (e.followAll flow now t as).session ∧
      (e.followAll flow now t as).Plain flow := by
  induction as generalizing t with
  | nil => exact ⟨.of_marks rfl, hplain⟩
  | cons a rest ih =>
    have hproceeds := e.proceeds_followAll flow now rest (e.follow flow now t a)
    obtain ⟨hfirst, hplain'⟩ := follow_adds unique (hproceeds.ids.sublist.nodup differ) hplain
    obtain ⟨hrest, hplain''⟩ := ih differ hplain'
    exact ⟨(hfirst.trans hrest).congr fun o _ id _ => Activation.begun_cons a rest id, hplain''⟩

/-- Plans that start no first step of a scope are carried out without one. -/
theorem drive_adds {t : Motion} (differ : (e.drive flow now t).session.run.executionIds.Nodup)
    (hplain : t.Plain flow) :
    t.session.Adds flow (fun _ => 0) (e.drive flow now t).session := by
  induction t using drive.induct e flow now with
  | case1 t h =>
    rw [drive_nil h]
    exact .of_marks rfl
  | case2 t plan rest h status hend =>
    rw [drive_cons h, hend]
    exact .of_marks rfl
  | case3 t plan rest h marked hend ih =>
    rw [drive_cons h, hend] at differ ⊢
    have hproceeds := e.proceeds_drive flow now
      (e.followAll flow now ({ t with pending := rest }.mark plan) plan.activations)
    have hrest : ({ t with pending := rest }.mark plan : Motion).Plain flow := fun p hp =>
      hplain p (h ▸ List.mem_cons_of_mem plan hp)
    obtain ⟨hfollow, hplain'⟩ :=
      followAll_adds unique (hproceeds.ids.sublist.nodup differ) hrest
    have hnone := hfollow.congr fun o ho id hid =>
      (hplain plan (h ▸ List.mem_cons_self) o ho id hid).symm
    have hmark : t.session.Adds flow (fun _ => 0)
        ({ t with pending := rest }.mark plan : Motion).session := .of_marks rfl
    exact (hmark.trans hnone).trans (ih differ hplain')

/-- A plan that is carried out starts its steps, and besides these no first step of a scope. -/
theorem drive_setOut_adds {s : Session} {plan : Plan} {advance : Advance}
    (hend : ∀ status, plan.ending? = some status → plan.activations = [])
    (differ : (e.drive flow now (e.setOut s plan advance)).session.run.executionIds.Nodup) :
    s.Adds flow (Activation.begun plan.activations)
      (e.drive flow now (e.setOut s plan advance)).session := by
  have hpending : (e.setOut s plan advance).pending = [plan] := rfl
  rw [drive_cons hpending] at differ ⊢
  cases hending : plan.ending? with
  | some status =>
    rw [hend status hending]
    exact .of_marks rfl
  | none =>
    rw [hending] at differ
    have hproceeds := e.proceeds_drive flow now (e.followAll flow now
      ({ e.setOut s plan advance with pending := [] }.mark plan) plan.activations)
    have hnone : ({ e.setOut s plan advance with pending := [] }.mark plan : Motion).Plain flow :=
      fun p hp => absurd hp List.not_mem_nil
    obtain ⟨hfollow, hplain⟩ := followAll_adds unique (hproceeds.ids.sublist.nodup differ) hnone
    have hmark : s.Adds flow (fun _ => 0)
        ({ e.setOut s plan advance with pending := [] }.mark plan : Motion).session := .of_marks rfl
    refine ((hmark.trans hfollow).trans (drive_adds unique differ hplain)).congr fun o _ id _ => ?_
    rw [Nat.zero_add, Nat.add_zero]

theorem propagate_adds {s : Session} {flags : Flags} {plan : Plan} {advance : Advance}
    (hend : ∀ status, plan.ending? = some status → plan.activations = [])
    (differ : (e.propagate flow now flags s plan advance).1.run.executionIds.Nodup) :
    s.Adds flow (Activation.begun plan.activations)
      (e.propagate flow now flags s plan advance).1 := by
  have hexecutions : (e.propagate flow now flags s plan advance).1.run.executions =
      (e.drive flow now (e.setOut s plan advance)).session.run.executions := by
    rw [run_propagate]
    unfold travel
    dsimp only
    split <;> rfl
  rw [Run.executionIds, hexecutions] at differ
  exact (drive_setOut_adds unique hend differ).trans
    (.of_marks (by rw [Run.marks, Run.marks, hexecutions]))

end Engine

namespace Session

/-- What the tallies of a run say while it is on its way. -/
structure Tallies (f : Flow) (policy : EnginePolicy) (s : Session) : Prop where
  expects : f.Expects s.run.marks
  bounds : ∀ o, f.Has o → (o.step.spread policy).Bounds o.step.heads (Mark.begun s.run.marks)
    (Mark.done s.run.marks o.id)

variable {f : Flow} {policy : EnginePolicy} {s s' : Session} {k : Mark}

theorem Tallies.of_marks (h : s.Tallies f policy) (hm : s'.run.marks = s.run.marks) :
    s'.Tallies f policy :=
  ⟨hm ▸ h.expects, hm ▸ h.bounds⟩

/-- What fails completes nothing. -/
theorem Tallies.fails (h : s.Tallies f policy) (hs : s.Closes s' k .failed) :
    s'.Tallies f policy := by
  refine ⟨hs.expects h.expects, fun o ho => ?_⟩
  rw [hs.done o.id, if_neg (by simp)]
  exact (h.bounds o ho).congr fun id _ => hs.begun id

/-- When steps are added behind an owner of scopes that is completed, they are the ones that it
spreads to. -/
theorem Tallies.adds {t : Session} {more : String → Nat} (h : s.Tallies f policy)
    (hs : s.Closes t k .completed) (ht : t.Adds f more s')
    (hmore : ∀ o, f.Has o →
      (o.step.spread policy).Bounds o.step.heads more (if o.id = k.step then 1 else 0)) :
    s'.Tallies f policy := by
  have hexpects := hs.expects h.expects
  refine ⟨ht.expects hexpects, fun o ho => Spread.bounds_of_ne_nil fun hne => ?_⟩
  have hdone : Mark.done s'.run.marks o.id =
      Mark.done s.run.marks o.id + if o.id = k.step then 1 else 0 := by
    rw [ht.done o ho hne, hs.done o.id]
    simp [eq_comm]
  rw [hdone]
  refine ((h.bounds o ho).add (hmore o ho)).congr fun id hid => ?_
  rw [ht.begun hexpects o ho id hid, hs.begun id]

theorem Tallies.plain (h : s.Tallies f policy) (hs : s.Adds f (fun _ => 0) s') :
    s'.Tallies f policy := by
  refine ⟨hs.expects h.expects, fun o ho => Spread.bounds_of_ne_nil fun hne => ?_⟩
  rw [hs.done o ho hne]
  exact (h.bounds o ho).congr fun id hid => hs.begun h.expects o ho id hid

end Session

namespace Engine

section Unique

variable {e : Engine} {flow : Flow} {now : Instant} {s : Session} (unique : flow.ids.Nodup)
include unique

/-- The tally holds on an accepted submission. -/
theorem accept_tallies {flags : Flags} {x : Execution} {result : Record}
    (h : s.Tallies flow e.policy) (hx : s.run.find? x.id = some x)
    (hopen : x.status.isCompletable = true)
    (differ : (e.accept flow now flags s x result).1.run.executionIds.Nodup) :
    (e.accept flow now flags s x result).1.Tallies flow e.policy := by
  obtain ⟨_, hcloses⟩ := closes_take hx hopen result now
  cases hf : flow.find? x.stepId with
  | none =>
    have hsame : (e.accept flow now flags s x result).1 = s.take x result now := by
      unfold accept
      simp only [hf]
      rfl
    rw [hsame]
    refine h.adds hcloses (.of_marks rfl) fun o ho => ?_
    refine Spread.bounds_of_zero (fun _ _ => rfl) fun _ => .inr (if_neg ?_)
    intro hid
    have hfound := ho.find? unique
    rw [hid] at hfound
    exact Option.some_ne_none _ (hfound.symm.trans hf)
  | some p =>
    obtain ⟨hp, hid⟩ := (Flow.find?_eq_some_iff unique).mp hf
    rw [accept_of hf] at differ ⊢
    have hsettle : (s.take x result now).Adds flow (fun _ => 0) ((s.take x result now).settle
        (e.follows flow (s.take x result now) x.stepId result x.fork)) := .of_marks rfl
    have hadds := hsettle.trans
      (propagate_adds unique (fun _ => Outline.activations_of_ending) differ)
    refine h.adds hcloses hadds fun o ho => ?_
    have hbounds : (o.step.spread e.policy).Bounds o.step.heads _ _ :=
      Outline.bounds_after unique hp ho (s.take x result now).run
        (e.nextId (s.take x result now) "pg") result x.fork
    rw [hid] at hbounds
    exact hbounds.congr fun id _ => Nat.zero_add _

omit unique in
/-- All that is expected when a run starts are the steps of the main path. -/
theorem expectAll_main {steps : List Step} (hsteps : steps ⊆ flow.steps)
    (h : ∀ k ∈ s.run.marks, k.standing = .expected ∧ flow.OnMain k.step) :
    ∀ k ∈ (e.expectAll flow s steps).run.marks,
      k.standing = .expected ∧ flow.OnMain k.step := by
  induction steps generalizing s with
  | nil => exact h
  | cons step rest ih =>
    rw [List.cons_subset] at hsteps
    refine ih hsteps.2 ?_
    change ∀ k ∈ (e.materialize flow s step).1.run.marks, _
    rcases e.materialize_cases flow s step with ⟨i, x, he, _⟩ | ⟨_, he⟩
    · rw [he]
      exact h
    · rw [he]
      dsimp only
      rw [marks_expect]
      intro k hk
      rcases List.mem_append.mp hk with hk | hk
      · exact h k hk
      · rw [List.mem_singleton.mp hk]
        exact ⟨rfl, Flow.onMain_of_mem hsteps.1⟩

theorem ready_tallies (hs : s.run.executions = []) :
    (e.ready flow now s).Tallies flow e.policy := by
  have hmain : ∀ k ∈ (e.ready flow now s).run.marks,
      k.standing = .expected ∧ flow.OnMain k.step :=
    expectAll_main (List.Subset.refl _) (by simp [Session.dated, Run.marks, hs])
  refine ⟨fun k hk _ => (hmain k hk).2, fun o ho => ?_⟩
  have hdone : Mark.done (e.ready flow now s).run.marks o.id = 0 := by
    refine List.countP_eq_zero.mpr fun k hk => ?_
    simp [(hmain k hk).1]
  refine Spread.bounds_of_zero (fun id hid => ?_) fun _ => .inr hdone
  refine List.countP_eq_zero.mpr fun k hk => ?_
  rw [decide_eq_true_eq]
  rintro rfl
  exact (hmain k hk).2.not_head unique ho hid

/-- The tally holds once a run has started. -/
theorem start_tallies {flags : Flags} (hs : s.run.IsFresh)
    (differ : (e.start flow now flags s).1.run.executionIds.Nodup) :
    (e.start flow now flags s).1.Tallies flow e.policy := by
  have hready : (e.ready flow now s).Tallies flow e.policy := ready_tallies unique hs.executions
  rw [start_fresh hs.active hs.executions] at differ ⊢
  cases hsteps : flow.steps with
  | nil => exact hready.of_marks rfl
  | cons first rest =>
    rw [hsteps] at differ
    have hadds := propagate_adds unique (by simp [Plan.ending?]) differ
    refine hready.plain (hadds.congr fun o ho id hid => (Activation.begun_eq_zero ?_).symm)
    intro a ha
    rw [List.mem_singleton.mp ha]
    rintro rfl
    exact (Flow.onMain_of_mem (by simp [hsteps])).not_head unique ho hid

end Unique

namespace Reaches

variable {e : Engine} {flow : Flow} {allowed : Move → Prop} {s : Session}

/-- A run that goes on has started. -/
theorem started (h : e.Reaches flow allowed s) :
    s.run.isActive = true → s.run.executions ≠ [] := by
  induction h with
  | @start s now flags hs =>
    intro ha
    change (e.start flow now flags s).1.run.isActive = true at ha
    change (e.start flow now flags s).1.run.executions ≠ []
    rw [start_fresh hs.active hs.executions] at ha ⊢
    cases hsteps : flow.steps with
    | nil =>
      rw [hsteps] at ha
      cases ha
    | cons first rest =>
      exact (e.grows_propagate flow now _ flags _ _).ne_nil (ready_ne_nil (by simp [hsteps]))
  | @move s now m _ _ ih =>
    intro ha
    by_cases hactive : s.run.isActive = true
    · exact (e.grows_play flow now s m).ne_nil (ih hactive)
    · have hended : s.run.status ≠ .active := fun h => hactive (s.run.isActive_iff.mpr h)
      have hstatus := (e.rests_play flow now hended m).status
      rw [Run.isActive_iff, hstatus] at ha
      exact absurd ha hended

/-- The tally holds on every run. -/
theorem tallies (unique : flow.ids.Nodup) (h : e.Reaches flow allowed s)
    (differ : s.run.executionIds.Nodup) : s.Tallies flow e.policy := by
  induction h with
  | @start s now flags hs => exact start_tallies unique hs differ
  | @move s now m hs _ ih =>
    have htallies := ih ((e.proceeds_play flow now s m).ids.sublist.nodup differ)
    rcases e.play_cases flow now s m (fun _ _ => hs.started) with
      ⟨_, hstays⟩ | ⟨_, _, k, hk⟩ |
      ⟨t, flags, x, result, _, ht, hx, hopen, _, hstays⟩
    · exact htallies.of_marks hstays.marks
    · exact htallies.fails hk
    · have differ' : (e.accept flow now flags t x result).1.run.executionIds.Nodup := by
        rwa [← Run.map_id_marks, ← hstays.marks, Run.map_id_marks]
      exact (accept_tallies unique (htallies.of_marks ht.marks) hx hopen differ').of_marks
        hstays.marks

/-- The first steps of the scopes of every branch and every decision have begun as often as the
owner was completed and spreads: on every path of a parallel branch that has steps once each time,
on every path of a choice for several paths at most once each time, and for all others once in all
scopes together at most. -/
theorem routes (unique : flow.ids.Nodup) (h : e.Reaches flow allowed s)
    (differ : s.run.executionIds.Nodup) :
    ∀ p, flow.Has p → s.run.Routes e.policy p.step := by
  intro p hp
  have hbounds := (h.tallies unique differ).bounds p hp
  rw [Run.Routes, Run.done_eq]
  exact hbounds.congr fun id _ => s.run.begun_eq id

theorem routes_ended :
    Sample.ended.run.begun "a" = Sample.ended.run.done "fork" ∧
      Sample.ended.run.begun "b" = Sample.ended.run.done "fork" := by
  have hids : Sample.ended.run.executionIds = ["exec_", "exec_11", "exec_111"] := by
    cbv
  have hroutes := routes (by decide) Sample.reaches_ended (by rw [hids]; decide) _
    (.main (k := 0) rfl)
  exact ⟨hroutes "a" (by decide), hroutes "b" (by decide)⟩

end Reaches

end Engine

end Workflow
