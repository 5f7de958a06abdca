import Workflow.Proofs.Edit.Around
import Workflow.Proofs.Journal

namespace Workflow

/-- The same plan, with a note of the end that a step calls for. -/
def Planned.noting (p : Planned) (status : TerminateStatus) : Planned :=
  { p with plan.terminate := some status }

/-- No step of the main path is there to end the run. -/
def Flow.IsUncut (f : Flow) : Prop :=
  ∀ p status, f.Has p → p.scopes = [] → p.step.body ≠ .terminate status

/-- On the way, a strand of the run ran off the end of the main path. -/
def Journal.RunsOff (js : Journal) : Prop :=
  ∃ plan ∈ js.plans, plan.exhausted = true

/-- Where a way out leads depends on the scope alone. -/
theorem Outline.leave_congr {o : Outline} {i k : Fin o.places.length}
    (h : (o.place i).scope? = (o.place k).scope?) (forks : List Fork) (fork : Option String) :
    o.leave forks fork i = o.leave forks fork k := by
  cases hs : (o.place k).scope? with
  | none => rw [leave_main hs, leave_main (h.trans hs)]
  | some scope =>
    cases hj : o.indexOf? scope.owner with
    | none => rw [leave_lost hs hj, leave_lost (h.trans hs) hj]
    | some j => rw [leave_of hs hj, leave_of (h.trans hs) hj]

namespace Flow

variable {f : Flow}

section Unique

variable (unique : f.ids.Nodup)
include unique

/-- An edit of a list leaves the way out of its scope as it is. -/
theorem leave_modifyAround {edit : List Step → List Step} {p : Place}
    (unique' : (f.modifyAround p.id edit).ids.Nodup) {i : Fin f.outline.places.length}
    {i' : Fin (f.modifyAround p.id edit).outline.places.length} (hi : f.outline.place i = p)
    (hi' : ((f.modifyAround p.id edit).outline.place i').scopes = p.scopes) (hs : p.scopes ≠ [])
    (forks : List Fork) (fork : Option String) :
    (f.modifyAround p.id edit).outline.leave forks fork i' = f.outline.leave forks fork i := by
  obtain ⟨scope, hscope⟩ : ∃ scope, p.scope? = some scope :=
    Option.isSome_iff_exists.mp (by simpa [Place.scope?] using hs)
  have hp : f.Has p := hi ▸ Outline.has_place i
  obtain ⟨o, ho, hin, hscopes⟩ := hp.owner hscope
  have hencl : f.Encloses o scope p := ⟨ho, hin, hscopes⟩
  obtain ⟨-, howner, j, hj, hplace⟩ := hencl.indexOf? unique
  have hmem : p.id ∈ Step.idsOf p.siblings := Step.mem_idsOf hp.step_at p.step.id_mem_ids
  obtain ⟨hid, hne⟩ := ho.holds unique hin hmem
  obtain ⟨j', hj', hplace'⟩ :=
    Outline.exists_indexOf? unique' (ho.modifyInside unique edit hid hne)
  rw [Place.id_modifyInside, howner] at hj'
  rw [Outline.leave_eq (by rw [hi, hscope]) hj,
    Outline.leave_eq (by rw [Place.scope?, hi', ← Place.scope?, hscope]) hj']
  -- Both flows report to the same fork. What goes on, goes on behind the owner, which is around the
  -- edited list: there the returns are the same.
  rcases Fork.receive forks fork scope.owner scope.id with ⟨forks', _ | fork'⟩
  · rfl
  · have hreturns := (returns_iff unique j forks' fork' _).mpr rfl
    rw [hplace] at hreturns
    have hreturns' := hreturns.modifyInside unique edit ho hid hne
    rw [← hplace'] at hreturns'
    exact ((returns_iff unique' j' forks' fork' _).mp hreturns').symm

/-- A step without scopes of its own can be added behind a list. -/
theorem nodup_append_step {p : Place} (hp : f.Has p) {a : Step} (ha : a.inner = [])
    (hfresh : a.id ∉ f.ids) : (f.modifyAround p.id (· ++ [a])).ids.Nodup := by
  obtain ⟨⟨pre, post, hids, hedited⟩, -⟩ := grafts_of_find? (hp.find? unique)
  have hstep : Step.idsOf (p.siblings ++ [a]) = Step.idsOf p.siblings ++ [a.id] := by
    simp [Step.idsOf_eq, Step.ids_eq a, ha]
  have heq : (f.modifyAround p.id (· ++ [a])).ids = pre ++ Step.idsOf p.siblings ++
    a.id :: post := by
    refine (hedited _).trans ?_
    rw [hstep]
    simp
  have hperm : (f.modifyAround p.id (· ++ [a])).ids.Perm (a.id :: f.ids) := by
    rw [heq, hids]
    exact List.perm_middle
  exact hperm.nodup_iff.mpr (List.nodup_cons.mpr ⟨hfresh, unique⟩)

theorem exists_after_last {p : Place} (hp : f.Has p) (hn : p.next? = none)
    (hb : p.step.body.isPlain = true) (policy : EnginePolicy) (run : Run) (newId : String)
    (result : Record) (fork : Option String) :
    ∃ i, f.outline.place i = p ∧ f.outline.after policy run newId p.id result fork =
      .ofOnward (f.outline.leave run.forks fork i) := by
  obtain ⟨i, hi, hplace⟩ := Outline.exists_indexOf? unique hp
  refine ⟨i, hplace, ?_⟩
  rw [after_plain policy run newId result fork hi hplace hb, Outline.onward_last (hplace ▸ hn)]

section Quit

variable {p : Place} {status : TerminateStatus} {policy : EnginePolicy} (hp : f.Has p)
  (hs : p.scopes ≠ []) (hb : p.step.body = .terminate status)
  (hpolicy : policy.terminate = .endScope) (run : Run) (newId newId' : String)
  (result result' : Record) (fork : Option String)
include hp hs hb hpolicy

theorem exists_after_quit :
    ∃ i, f.outline.place i = p ∧ f.outline.after policy run newId p.id result fork =
      (Planned.ofOnward (f.outline.leave run.forks fork i)).noting status := by
  obtain ⟨i, hi, hplace⟩ := Outline.exists_indexOf? unique hp
  refine ⟨i, hplace, ?_⟩
  rw [Outline.after, hi]
  dsimp only
  rw [Outline.afterPlace, hplace, hb]
  dsimp only
  rw [if_neg (by simp [hpolicy, Place.onMainPath, hs])]
  rfl

theorem after_quit_endRun :
    (f.outline.after policy run newId p.id result fork).plan.endRun = false := by
  obtain ⟨i, -, hquit⟩ := exists_after_quit unique hp hs hb hpolicy run newId result fork
  rw [hquit]
  exact Onward.endRun_toPlan _

/-- To quit a scope is to come to the end of it. -/
theorem after_quit_last {q : Place} (hq : f.Has q) (hscopes : q.scopes = p.scopes)
    (hn : q.next? = none) (hplain : q.step.body.isPlain = true) :
    f.outline.after policy run newId p.id result fork =
      (f.outline.after policy run newId' q.id result' fork).noting status := by
  obtain ⟨i, hi, hquit⟩ := exists_after_quit unique hp hs hb hpolicy run newId result fork
  obtain ⟨k, hk, hlast⟩ := exists_after_last unique hq hn hplain policy run newId' result' fork
  have hsame : (f.outline.place i).scope? = (f.outline.place k).scope? := by
    rw [hi, hk, Place.scope?, Place.scope?, hscopes]
  rw [hquit, hlast, Outline.leave_congr hsame]

/-- It is also to come to the end that the scope has with one more step. -/
theorem after_quit_added {a : Step} (hfresh : a.id ∉ f.ids) (hplain : a.body.isPlain = true) :
    (f.modifyAround p.id (· ++ [a])).ids.Nodup ∧
      (f.modifyAround p.id (· ++ [a])).Has
        ⟨a, p.siblings ++ [a], p.siblings.length, p.scopes⟩ ∧
      f.outline.after policy run newId p.id result fork =
        ((f.modifyAround p.id (· ++ [a])).outline.after policy run newId' a.id result'
          fork).noting status := by
  have hinner : a.inner = [] := by
    cases hbody : a.body <;> simp [hbody, Body.isPlain, Step.inner] at hplain ⊢
  have unique' := nodup_append_step unique hp hinner hfresh
  have hat : (p.siblings ++ [a])[p.siblings.length]? = some a := by simp
  have ha := hp.modifyAround unique (· ++ [a]) hat
  obtain ⟨i, hi, hquit⟩ := exists_after_quit unique hp hs hb hpolicy run newId result fork
  obtain ⟨k, hk, hlast⟩ :=
    exists_after_last unique' ha (by simp [Place.next?]) hplain policy run
    newId' result' fork
  have hscopes : ((f.modifyAround p.id (· ++ [a])).outline.place k).scopes = p.scopes := by rw [hk]
  refine ⟨unique', ha, ?_⟩
  rw [hquit, ← leave_modifyAround unique unique' hi hscopes hs, ← hlast]
  rfl

end Quit

end Unique

end Flow

section Uncut

variable {e : Engine} {flow : Flow} {now : Instant}

/-- Only a TERMINATE step on the main path ends a run at once. -/
theorem Flow.IsUncut.ending?_after (h : flow.IsUncut) {policy : EnginePolicy}
    (hpolicy : policy.terminate = .endScope) (run : Run) (newId stepId : String) (result : Record)
    (fork : Option String) :
    (flow.outline.after policy run newId stepId result fork).plan.ending? = none := by
  suffices hend : (flow.outline.after policy run newId stepId result fork).plan.endRun = false by
    rw [Plan.ending?, hend]
    rfl
  unfold Outline.after
  split
  · rfl
  · rename_i i _
    refine Outline.afterPlace_cases (P := fun planned => planned.plan.endRun = false) flow.outline
      policy run.forks ⟨result, run⟩ fork newId i ?_ ?_ ?_ ?_ ?_ ?_
    · exact fun _ => Onward.endRun_toPlan _
    · exact fun _ _ _ _ => Onward.endRun_toPlan _
    · intro kind join paths taken _ _ _ _ _
      rw [Outline.fanOut_eq]
      split
      · exact Plan.endRun_add _ _
      · rfl
    · exact fun _ _ _ _ _ => rfl
    · rintro status hb (hends | hmain)
      · rw [hpolicy] at hends
        cases hends
      · exact absurd hb (h _ _ (Outline.has_place i) (List.isEmpty_iff.mp hmain))
    · exact fun _ _ => Onward.endRun_toPlan _

theorem Journal.RunsOff.append_left {js : Journal} (h : js.RunsOff) (js' : Journal) :
    (js ++ js').RunsOff := by
  obtain ⟨plan, hplan, hoff⟩ := h
  exact ⟨plan, by simp [hplan], hoff⟩

/-- A run on its way that nothing is going to end, and that is going to be complete only if a strand
ran off the end of the main path. -/
structure Motion.Lasts (js : Journal) (status : RunStatus) (m : Motion) : Prop where
  status_eq : m.session.run.status = status
  lasting : ∀ plan ∈ m.pending, plan.ending? = none
  planned : ∀ plan ∈ m.pending, plan.exhausted = true → js.RunsOff
  exhausted : m.exhausted = true → js.RunsOff

namespace Engine

theorem status_pass (m : Motion) (x : Execution) (step : Step) (fork : Option String) :
    (e.pass flow now m x step fork).session.run.status = m.session.run.status := by
  cases h : m.budget with
  | zero => rw [pass_zero h]
  | succ budget =>
    rw [pass_succ h]
    rfl

end Engine

namespace Motion.Lasts

variable {js : Journal} {status : RunStatus} {m : Motion}

theorem of_session (h : m.Lasts js status) {s : Session} {advance : Advance}
    (hs : s.run.status = m.session.run.status) :
    { m with session := s, advance := advance }.Lasts js status :=
  ⟨hs.trans h.status_eq, h.lasting, h.planned, h.exhausted⟩

theorem append (h : m.Lasts js status) (js' : Journal) : m.Lasts (js ++ js') status :=
  ⟨h.status_eq, h.lasting, fun plan hp hoff => (h.planned plan hp hoff).append_left js',
    fun hoff => (h.exhausted hoff).append_left js'⟩

theorem mark (h : m.Lasts js status) {plan : Plan} {rest : List Plan}
    (hp : m.pending = plan :: rest) : ({ m with pending := rest }.mark plan).Lasts js status := by
  have hrest : ∀ p ∈ rest, p ∈ m.pending := fun p hmem => hp ▸ List.mem_cons_of_mem _ hmem
  refine ⟨h.status_eq, fun p hmem => h.lasting p (hrest p hmem),
    fun p hmem => h.planned p (hrest p hmem), fun hoff => ?_⟩
  rcases Bool.or_eq_true_iff.mp hoff with hoff | hoff
  · exact h.exhausted hoff
  · exact h.planned plan (hp ▸ List.mem_cons_self) hoff

variable (uncut : flow.IsUncut) (hpolicy : e.policy.terminate = .endScope)
include uncut hpolicy

theorem pass (h : m.Lasts js status) (x : Execution) (step : Step) (fork : Option String) :
    (e.pass flow now m x step fork).Lasts (js ++ e.passJournal flow now m x step fork) status := by
  cases hb : m.budget with
  | zero =>
    rw [Engine.pass_zero hb]
    exact h.append _
  | succ budget =>
    have h := h.append (e.passJournal flow now m x step fork)
    refine ⟨(Engine.status_pass m x step fork).trans h.status_eq, ?_, ?_, ?_⟩
    all_goals rw [Engine.pass_succ hb]
    · intro plan hplan
      rcases List.mem_append.mp hplan with hplan | hplan
      · exact h.lasting plan hplan
      · rw [List.mem_singleton.mp hplan]
        exact uncut.ending?_after hpolicy _ _ _ _ _
    · intro plan hplan hoff
      rcases List.mem_append.mp hplan with hplan | hplan
      · exact h.planned plan hplan hoff
      · refine ⟨plan, ?_, hoff⟩
        rw [Engine.passJournal_succ hb, List.mem_singleton.mp hplan]
        simp
    · exact h.exhausted

theorem follow (h : m.Lasts js status) (a : Activation) :
    (e.follow flow now m a).Lasts (js ++ e.followJournal flow now m a) status := by
  cases hf : flow.find? a.step with
  | none =>
    obtain ⟨hjournal, hsame⟩ := e.followJournal_none now m hf
    rw [hjournal, hsame]
    exact h.append []
  | some place =>
    obtain ⟨x, hx, -, hkeeps, -⟩ := e.activate_starts flow now m.session place.step a.fork
    rw [Engine.follow_of hf hx, Engine.followJournal_of hf hx]
    split
    · -- the plan behind a step that is passed is in the journal before it is pending
      rw [← List.singleton_append, ← List.append_assoc]
      exact ((h.append [.starts x place.step]).of_session hkeeps.status).pass uncut hpolicy _ _ _
    · exact (h.append _).of_session hkeeps.status

theorem drive (h : m.Lasts js status) :
    (e.drive flow now m).Lasts (js ++ e.driveJournal flow now m) status := by
  refine Engine.drive_keeps (P := fun js m => m.Lasts js status) ?_ ?_ ?_ js m h
  · exact fun js m plan rest hp _ h => h.mark hp
  · exact fun js m a h => h.follow uncut hpolicy a
  · intro js m plan rest status hp hending h
    rw [h.lasting plan (hp ▸ List.mem_cons_self)] at hending
    cases hending

end Motion.Lasts

namespace Engine

section Lasts

variable (uncut : flow.IsUncut) (hpolicy : e.policy.terminate = .endScope)
include uncut hpolicy

theorem travel_lasts (js : Journal) {s : Session} {plan : Plan} {advance : Advance}
    (h : (e.setOut s plan advance).Lasts js s.run.status) :
    (e.travel flow now s plan advance).session.run.status = s.run.status ∨
      (e.travel flow now s plan advance).session.run.status = .completed ∧
        (js ++ e.driveJournal flow now (e.setOut s plan advance)).RunsOff := by
  have hdrive : (e.drive flow now (e.setOut s plan advance)).Lasts _ s.run.status :=
    h.drive uncut hpolicy
  unfold travel
  dsimp only
  split
  · rename_i hend
    exact .inr ⟨rfl, hdrive.exhausted (Bool.and_eq_true_iff.mp hend).1⟩
  · exact .inl hdrive.status_eq

/-- A run that starts is over only by running off its end. -/
theorem start_lasts {s : Session} (ha : s.run.isActive = true) (hx : s.run.executions = [])
    (flags : Flags) :
    (e.start flow now flags s).1.run.status = s.run.status ∨
      (e.start flow now flags s).1.run.status = .completed ∧
        (flow.steps = [] ∨ (e.startJournal flow now s).RunsOff) := by
  have hready := (e.keeps_ready flow now s).status
  rw [start_fresh ha hx]
  unfold startJournal
  rw [if_neg (by simp [ha, hx])]
  cases flow.steps with
  | nil => exact .inr ⟨rfl, .inl rfl⟩
  | cons first rest =>
    dsimp only
    rw [run_propagate, ← hready]
    refine (travel_lasts uncut hpolicy [] ⟨rfl, ?_, ?_, fun h => by cases h⟩).imp_right
      fun ⟨hdone, hoff⟩ => ⟨hdone, .inr hoff⟩
    · simp [setOut, Plan.ending?]
    · simp [setOut]

/-- So is a run that moves on. -/
theorem accept_lasts (s : Session) (flags : Flags) (x : Execution) (result : Record) :
    (e.accept flow now flags s x result).1.run.status = s.run.status ∨
      (e.accept flow now flags s x result).1.run.status = .completed ∧
        (e.acceptJournal flow now s x result).RunsOff := by
  unfold acceptJournal
  cases hf : flow.find? x.stepId with
  | none =>
    unfold accept
    simp only [hf]
    exact .inl rfl
  | some place =>
    rw [accept_of hf, run_propagate]
    refine travel_lasts (s := (s.take x result now).settle _) uncut hpolicy [.plans x.stepId _]
      ⟨rfl, ?_, ?_, fun h => by cases h⟩
    · intro plan hplan
      rw [List.mem_singleton.mp hplan]
      exact uncut.ending?_after hpolicy _ _ _ _ _
    · intro plan hplan hoff
      rw [List.mem_singleton.mp hplan] at hoff
      exact ⟨_, List.mem_singleton_self _, hoff⟩

/-- No move ends a run otherwise. -/
theorem play_lasts (now : Instant) (s : Session) (m : Move) :
    (e.play flow now s m).1.run.status = s.run.status ∨
      (e.play flow now s m).1.run.status = .completed ∧
        (flow.steps = [] ∨ (e.playJournal flow now s m).RunsOff) := by
  by_cases hstart : ∃ flags, m = .start flags ∧ s.run.isActive = true ∧ s.run.executions = []
  · obtain ⟨flags, rfl, ha, hx⟩ := hstart
    exact start_lasts uncut hpolicy ha hx flags
  · have hs : ∀ flags, m = .start flags → s.run.isActive = true → s.run.executions ≠ [] :=
      fun flags hm ha hx => hstart ⟨flags, hm, ha, hx⟩
    rcases e.play_cases flow now s m hs with ⟨_, hstays⟩ | ⟨_, hkeeps, _⟩ |
      ⟨t, flags, x, result, hsome, ht, _, _, _, hstays⟩
    · exact .inl hstays.status
    · exact .inl hkeeps.status
    · unfold playJournal
      rw [hsome, hstays.status, ← ht.status]
      exact (accept_lasts uncut hpolicy t flags x result).imp_right
        fun ⟨hdone, hoff⟩ => ⟨hdone, .inr hoff⟩

/-- A flow with no TERMINATE on its main path is never cancelled. -/
theorem Reaches.not_cancelled {allowed : Move → Prop} {s : Session}
    (h : e.Reaches flow allowed s) : s.run.status ≠ .cancelled := by
  induction h with
  | @start s now flags hs =>
    rcases play_lasts uncut hpolicy now s (.start flags) with h | ⟨h, -⟩
    · rw [h, s.run.isActive_iff.mp hs.active]
      exact RunStatus.noConfusion
    · rw [h]
      exact RunStatus.noConfusion
  | @move s now m _ _ ih =>
    rcases play_lasts uncut hpolicy now s m with h | ⟨h, -⟩
    · rwa [h]
    · rw [h]
      exact RunStatus.noConfusion

end Lasts

/-- Under the policy that ends scopes, a TERMINATE step inside of a scope comes to what a step at
the end of the scope comes to, whether such a step is there or is put there. If no step of the main
path is a TERMINATE, runs are never cancelled, and complete only when they run off the main path. -/
theorem terminate_ends_scope (e : Engine) (f : Flow) (hpolicy : e.policy.terminate = .endScope) :
    (f.ids.Nodup → ∀ p status, f.Has p → p.scopes ≠ [] →
      p.step.body = .terminate status →
      ∀ (run : Run) (newId newId' : String) (result result' : Record) (fork : Option String),
        let quit := f.outline.after e.policy run newId p.id result fork
        quit.plan.endRun = false ∧
        (∀ q, f.Has q → q.scopes = p.scopes → q.next? = none →
          q.step.body.isPlain = true →
          quit = (f.outline.after e.policy run newId' q.id result' fork).noting status) ∧
        ∀ a : Step, a.id ∉ f.ids → a.body.isPlain = true →
          let g := f.modifyAround p.id (· ++ [a])
          g.ids.Nodup ∧ g.Has ⟨a, p.siblings ++ [a], p.siblings.length, p.scopes⟩ ∧
          quit = (g.outline.after e.policy run newId' a.id result' fork).noting status) ∧
    (f.IsUncut →
      (∀ s, e.Reaches f (fun _ => True) s → s.run.status ≠ .cancelled) ∧
      ∀ (s : Session) (now : Instant) (m : Move), s.run.status ≠ .completed →
        (e.play f now s m).1.run.status = .completed →
          f.steps = [] ∨ (e.playJournal f now s m).RunsOff) := by
  constructor
  · intro unique p status hp hs hb run newId newId' result result' fork
    refine ⟨Flow.after_quit_endRun unique hp hs hb hpolicy run newId result fork, ?_, ?_⟩
    · intro q hq hscopes hn hplain
      exact Flow.after_quit_last unique hp hs hb hpolicy run newId newId' result result' fork hq
        hscopes hn hplain
    · intro a hfresh hplain
      exact Flow.after_quit_added unique hp hs hb hpolicy run newId newId' result result' fork
        hfresh hplain
  · intro uncut
    refine ⟨fun s hs => hs.not_cancelled uncut hpolicy, ?_⟩
    intro s now m hbefore hdone
    rcases play_lasts uncut hpolicy now s m with hsame | ⟨-, hoff⟩
    · exact absurd (hsame.symm.trans hdone) hbefore
    · exact hoff

end Engine

end Uncut

namespace Sample

/-- A branch whose left path is quit before its only step. -/
def detour : Flow :=
  { Flow.empty "detour" "" with
    steps := [⟨"fork", "", "", "", none, [], .branch .parallel .all
      [⟨"left", "", {}, [⟨"quit", "", "", "", none, [], .terminate .cancelled⟩,
          Step.ofType "a" .form]⟩,
        ⟨"right", "", {}, [Step.ofType "b" .form]⟩]⟩] }

def detoured : Session :=
  (engine.play detour ⟨0⟩ (engine.play detour ⟨0⟩ { run := {} } (.start {})).1
    (.complete "exec_" [] {})).1

theorem isUncut_detour : detour.IsUncut := by
  rintro p status hp hmain hb
  cases hp with
  | @main k s hs =>
    rcases k with _ | k
    · obtain rfl := Option.some.inj hs
      cases hb
    · cases hs
  | inner _ _ _ => simp at hmain

end Sample

/-- Quitting the left path is as good as coming to its end, by the step that is there or by one
more, and the run is complete as soon as the right path is over as well. -/
theorem Engine.terminate_ends_scope_detour : Sample.detour.ids.Nodup ∧ Sample.detour.IsUncut ∧
    (∃ quit, Sample.detour.outline.after {} Sample.detoured.run "" "quit" [] (some "pg_1") =
      quit ∧
      quit = (Sample.detour.outline.after {} Sample.detoured.run "" "a" [] (some "pg_1")).noting
        .cancelled ∧
      quit = ((Sample.detour.modifyAround "quit" (· ++ [Step.ofType "c" .form])).outline.after {}
        Sample.detoured.run "" "c" [] (some "pg_1")).noting .cancelled) ∧
    Sample.detoured.run.status ≠ .cancelled ∧
    (Sample.engine.play Sample.detour ⟨0⟩ Sample.detoured
      (.complete "exec_111" [] {})).1.run.status =
      .completed ∧
    (Sample.engine.playJournal Sample.detour ⟨0⟩ Sample.detoured
      (.complete "exec_111" [] {})).RunsOff := by
  have unique : Sample.detour.ids.Nodup := by decide
  have hdone : (Sample.engine.play Sample.detour ⟨0⟩ Sample.detoured
      (.complete "exec_111" [] {})).1.run.status = .completed := by
    cbv
  have hopen : Sample.detoured.run.status ≠ .completed := by
    rw [show Sample.detoured.run.status = .active by cbv]
    decide
  have hfork : Sample.detour.Has ⟨_, Sample.detour.steps, 0, []⟩ := .main rfl
  have hquit := Flow.Has.inner (k := 0) hfork List.mem_cons_self rfl
  have hlast := Flow.Has.inner (k := 1) hfork List.mem_cons_self rfl
  obtain ⟨hscope, hrun⟩ := Engine.terminate_ends_scope Sample.engine Sample.detour rfl
  obtain ⟨-, hthere, hmore⟩ :=
    hscope unique _ _ hquit (by simp) rfl Sample.detoured.run "" "" [] []
    (some "pg_1")
  obtain ⟨-, -, hplaced⟩ := hmore (Step.ofType "c" .form) (by decide) rfl
  obtain ⟨hnever, hoff⟩ := hrun Sample.isUncut_detour
  exact ⟨unique, Sample.isUncut_detour, ⟨_, rfl, hthere _ hlast rfl rfl rfl, hplaced⟩,
    hnever _ (.move (.start ⟨rfl, rfl, rfl⟩) trivial), hdone,
    (hoff _ _ _ hopen hdone).resolve_left (by simp [Sample.detour])⟩

end Workflow
