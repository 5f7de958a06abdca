import Workflow.Proofs.Live.Play
import Workflow.Proofs.SingleChange

namespace Workflow

namespace Event

def isTimed : Event → Bool
  | .schedule _ _ | .cancelAll _ => true
  | _ => false

/-- Whether an event is news of a step or of the end of a flow. -/
def isNews : Event → Bool
  | .stepActivated _ _ _ _ | .stepCompleted _ _ _ | .flowCompleted _ => true
  | _ => false

end Event

/-- The execution that an event is about, as far as it concerns timers or is news. -/
def Event.execution? : Event → Option String
  | .schedule execution _ | .cancelAll execution | .stepActivated execution _ _ _
  | .stepCompleted execution _ _ => some execution
  | _ => none

/-- What the timers are told of a notice, and what is news in it. -/
def Notice.events : Notice → List Event
  | .activated x step flowDue timers =>
    timers.map (.schedule x.id) ++ [.stepActivated x.id step.id step.due.isSome flowDue]
  | .completed execution step status _ =>
    [.cancelAll execution, .stepCompleted execution step status]
  | .failed execution => [.cancelAll execution]
  | .ended status left =>
    left.map .cancelAll ++ if status = .completed then [.flowCompleted status] else []
  | .resolved _ _ | .reviewed _ _ | .automated _ _ => []

theorem Notice.events_of_isAside {n : Notice} (h : n.isAside = true) : n.events = [] := by
  cases n <;> first | rfl | cases h

theorem Notice.flatMap_events_of_isAside {ns : List Notice} (h : ∀ n ∈ ns, n.isAside = true) :
    ns.flatMap Notice.events = [] :=
  List.flatMap_eq_nil_iff.mpr fun n hn => events_of_isAside (h n hn)

def Session.events (s : Session) : List Event :=
  s.log.notices.flatMap Notice.events

namespace Session

variable {s s' : Session} {x y : Execution} {xs : List Execution} {ns : List Notice}

theorem Turns.events (h : s.Turns s' xs ns) :
    s'.events = s.events ++ ns.flatMap Notice.events := by
  unfold Session.events
  rw [h.notices, List.flatMap_append]

theorem Turns.events_aside (h : s.Turns s' xs ns) (hns : ∀ n ∈ ns, n.isAside = true) :
    s'.events = s.events := by
  rw [h.events, Notice.flatMap_events_of_isAside hns, List.append_nil]

theorem Aside.events (h : s.Aside s') : s'.events = s.events := by
  obtain ⟨_, h, hns⟩ := h
  exact h.events_aside hns

theorem Swaps.events (h : s.Swaps s' x y ns) :
    s'.events = s.events ++ ns.flatMap Notice.events := by
  obtain ⟨_, _, h⟩ := h
  exact h.events

theorem events_endRun (s : Session) (status : TerminateStatus) (now : Instant) :
    (s.endRun status now).events =
      s.events ++ ((openExecutions s.run).map .cancelAll ++
        if status = .completed then [.flowCompleted .completed] else []) := by
  unfold Session.events endRun note
  cases status <;> simp [Notice.events, openExecutions]

theorem Becomes.started (h : s.Becomes x y ns) : y.status ≠ .pending := by
  cases h with
  | announced _ _ hy | parked _ _ hy | passed _ _ hy | concluded _ _ hy | failed _ hy =>
    rw [hy]
    exact StepStatus.noConfusion
  | stayed _ hy => exact hy

/-- What is noted of a change is about the execution that changes. -/
theorem Becomes.execution (h : s.Becomes x y ns) (hid : y.id = x.id) {event : Event}
    (hevent : event ∈ ns.flatMap Notice.events) {id : String} (hof : event.execution? = some id) :
    id = x.id := by
  cases h with
  | announced _ _ _ step flowDue timers =>
    simp only [List.flatMap_singleton, Notice.events, List.mem_append, List.mem_map,
      List.mem_singleton] at hevent
    rcases hevent with ⟨timer, _, rfl⟩ | rfl <;> exact (Option.some.inj hof).symm.trans hid
  | parked | passed | stayed => cases hevent
  | concluded _ _ _ now =>
    simp only [List.flatMap_singleton, Notice.events, List.mem_cons, List.not_mem_nil,
      or_false] at hevent
    rcases hevent with rfl | rfl <;> exact (Option.some.inj hof).symm
  | failed =>
    simp only [List.flatMap_singleton, Notice.events, List.mem_singleton] at hevent
    subst hevent
    exact (Option.some.inj hof).symm

/-- Whatever is told of an execution, it has started. -/
def Introduced (s : Session) : Prop :=
  ∀ event ∈ s.events, ∀ id, event.execution? = some id →
    ∃ x ∈ s.run.executions, x.id = id ∧ x.status ≠ .pending

/-- Of an execution that is expected, nothing has been told. -/
theorem Introduced.not_pending (h : s.Introduced) (differ : s.run.executionIds.Nodup)
    (hx : x ∈ s.run.executions) {event : Event} (hevent : event ∈ s.events)
    (hof : event.execution? = some x.id) : x.status ≠ .pending := by
  obtain ⟨z, hz, hid, hstarted⟩ := h event hevent x.id hof
  rwa [← Run.eq_of_id differ hz hx hid]

/-- Every execution was noted before anything else is noted of it. -/
theorem Shift.introduced (h : s.Shift s') (differ : s.run.executionIds.Nodup)
    (hs : s.Introduced) : s'.Introduced := by
  intro event hevent id hof
  cases h with
  | aside h =>
    rw [h.executions]
    exact hs event (h.events ▸ hevent) id hof
  | expect _ h hns =>
    obtain ⟨z, hz, hid, hstarted⟩ := hs event (h.events_aside hns ▸ hevent) id hof
    rw [h.executions]
    exact ⟨z, List.mem_append_left _ hz, hid, hstarted⟩
  | @swap x y ns h hid hbecomes =>
    rw [h.events, List.mem_append] at hevent
    by_cases hx : id = x.id
    · exact ⟨y, (h.mem_iff differ).mpr (.inl rfl), hid.trans hx.symm, hbecomes.started⟩
    · rcases hevent with hevent | hevent
      · obtain ⟨z, hz, rfl, hstarted⟩ := hs event hevent id hof
        exact ⟨z, (h.mem_iff differ).mpr (.inr ⟨hz, hx⟩), rfl, hstarted⟩
      · exact absurd (hbecomes.execution hid hevent hof) hx
  | ended _ status now hs' =>
    subst hs'
    rw [events_endRun, List.mem_append, List.mem_append] at hevent
    rcases hevent with hevent | hevent | hevent
    · exact hs event hevent id hof
    · obtain ⟨left, hleft, rfl⟩ := List.mem_map.mp hevent
      obtain ⟨z, hz, hzid⟩ := List.mem_map.mp hleft
      obtain ⟨hz, hopen⟩ := List.mem_filter.mp hz
      refine ⟨z, hz, hzid.trans (Option.some.inj hof), fun hp => ?_⟩
      rw [hp] at hopen
      cases hopen
    · split at hevent
      · rw [List.mem_singleton.mp hevent] at hof
        cases hof
      · cases hevent

end Session

/-- Those events among some calls that one listens to, as one takes them. -/
def Call.heard {β : Type} (f : Event → Option β) (calls : List Call) : List β :=
  (calls.map Call.event).filterMap f

/-- Whether the listeners are there who are told what one listens to. -/
def Listeners.Concern {β : Type} (l : Listeners) (f : Event → Option β) : Prop :=
  ∀ event, (f event).isSome = true →
    event.isTimed = true ∧ l.timers.isSome = true ∨
      event.isNews = true ∧ l.notifier.isSome = true

open Call

section Heard

variable {α β γ : Type} {f : Event → Option β}

theorem Call.heard_append (f : Event → Option β) (calls calls' : List Call) :
    heard f (calls ++ calls') = heard f calls ++ heard f calls' := by
  simp [heard]

theorem Listener.heard_hear {l : Option (Listener α)} {event : Event}
    (h : (f event).isSome = true → l.isSome = true) (calls : List Call) :
    heard f (Listener.hear l calls event) = heard f calls ++ [event].filterMap f := by
  cases l with
  | none =>
    have hnone : f event = none := by simpa using h
    simp [Listener.hear, hnone]
  | some answer => exact heard_append f calls _

theorem Listener.heard_hears {l : Option (Listener α)} {g : γ → Event}
    (h : ∀ c, (f (g c)).isSome = true → l.isSome = true) (cs : List γ) (calls : List Call) :
    heard f (cs.foldl (fun calls c => Listener.hear l calls (g c)) calls) =
      heard f calls ++ (cs.map g).filterMap f := by
  induction cs generalizing calls with
  | nil => simp
  | cons c rest ih =>
    rw [List.foldl_cons, ih, heard_hear (h c), List.append_assoc, ← List.filterMap_append]
    rfl

/-- What one does not listen to makes no difference. -/
theorem Call.heard_foldl {tell : List Call → γ → List Call}
    (h : ∀ calls c, heard f (tell calls c) = heard f calls) (cs : List γ) (calls : List Call) :
    heard f (cs.foldl tell calls) = heard f calls := by
  induction cs generalizing calls with
  | nil => rfl
  | cons c rest ih => rw [List.foldl_cons, ih, h]

end Heard

namespace Listeners

variable {β : Type} {f : Event → Option β} {l : Listeners}

theorem Concern.timers (h : l.Concern f) {event : Event} (hevent : event.isNews = false)
    (hf : (f event).isSome = true) : l.timers.isSome = true := by
  rcases h event hf with ⟨_, htimers⟩ | ⟨hnews, _⟩
  · exact htimers
  · rw [hevent] at hnews
    cases hnews

theorem Concern.notifier (h : l.Concern f) {event : Event} (hevent : event.isTimed = false)
    (hf : (f event).isSome = true) : l.notifier.isSome = true := by
  rcases h event hf with ⟨htimed, _⟩ | ⟨_, hnotifier⟩
  · rw [hevent] at htimed
    cases htimed
  · exact hnotifier

/-- Nobody listens to what concerns others. -/
theorem Concern.none (h : l.Concern f) {event : Event} (htimed : event.isTimed = false)
    (hnews : event.isNews = false) : f event = none := by
  cases hf : f event with
  | none => rfl
  | some b =>
    rcases h event (by rw [hf]; rfl) with ⟨h, _⟩ | ⟨h, _⟩
    · exact absurd (htimed.symm.trans h) (by simp)
    · exact absurd (hnews.symm.trans h) (by simp)

/-- Sending links is nothing to a listener of other events. -/
theorem heard_sendLink (h : l.Concern f) (hours : UInt32) (execution step : String)
    (calls : List Call) (contact : Assignee) :
    heard f (l.sendLink hours execution step calls contact) = heard f calls := by
  have htoken : f (.token execution hours) = none := h.none rfl rfl
  unfold sendLink
  split
  · rfl
  · rename_i answer _
    have hcall : heard f (calls ++
        [⟨.token execution hours, (answer calls (.token execution hours)).failure?⟩]) =
          heard f calls := by
      rw [heard_append]
      simp [heard, htoken]
    dsimp only
    split
    · exact hcall
    · rename_i token _
      have hemail : f (.email contact.email token step) = none := h.none rfl rfl
      split
      · exact hcall
      · rw [Listener.heard_hear (by simp [hemail]), hcall]
        simp [hemail]

theorem heard_startSubFlow (h : l.Concern f) (execution : String) (step : Step)
    (calls : List Call) :
    heard f (l.startSubFlow execution step calls) = heard f calls := by
  unfold startSubFlow
  split
  · rename_i template _ _
    have hsub : f (.subFlow execution template) = none := h.none rfl rfl
    rw [Listener.heard_hear (by simp [hsub])]
    simp [hsub]
  · rfl

/-- Of a notice one hears what concerns one. -/
theorem heard_tell (h : l.Concern f) (hours : UInt32) (calls : List Call) (n : Notice) :
    heard f (l.tell hours calls n) = heard f calls ++ n.events.filterMap f := by
  cases n with
  | resolved step failure =>
    have hnone : f (.resolve step) = none := h.none rfl rfl
    simp [tell, heard, Notice.events, hnone]
  | reviewed step failure =>
    have hnone : f (.review step) = none := h.none rfl rfl
    simp [tell, heard, Notice.events, hnone]
  | activated x step flowDue timers =>
    unfold tell Notice.events
    rw [heard_foldl (heard_sendLink h hours x.id step.id), heard_startSubFlow h,
      Listener.heard_hear (h.notifier rfl), Listener.heard_hears fun timer => h.timers rfl,
      List.filterMap_append, List.append_assoc]
  | completed execution step status time =>
    have hnone : f (.runActivity time) = none := h.none rfl rfl
    unfold tell Notice.events
    dsimp only
    rw [Listener.heard_hear (by simp [hnone]), Listener.heard_hear (h.notifier rfl),
      Listener.heard_hear (h.timers rfl), List.append_assoc, List.append_assoc,
      ← List.filterMap_append, ← List.filterMap_append]
    simp [List.filterMap_cons, hnone]
  | failed execution => exact Listener.heard_hear (h.timers rfl) calls
  | ended status left =>
    unfold tell Notice.events
    dsimp only
    split
    · rw [Listener.heard_hear (h.notifier rfl), Listener.heard_hears fun id => h.timers rfl,
        List.filterMap_append, List.append_assoc]
    · rw [Listener.heard_hears fun id => h.timers rfl, List.append_nil]
  | automated execution step =>
    have hnone : f (.automate execution step) = none := h.none rfl rfl
    unfold tell
    rw [Listener.heard_hear (by simp [hnone])]
    simp [Notice.events, hnone]

/-- Of all notices one hears what concerns one. -/
theorem heard_tellAll (h : l.Concern f) (hours : UInt32) (calls : List Call)
    (notices : List Notice) :
    heard f (l.tellAll hours calls notices) =
      heard f calls ++ (notices.flatMap Notice.events).filterMap f := by
  unfold tellAll
  induction notices generalizing calls with
  | nil => simp
  | cons n rest ih =>
    rw [List.foldl_cons, ih, heard_tell h, List.flatMap_cons, List.filterMap_append,
      List.append_assoc]

end Listeners

namespace LiveEngine

/-- What has become of a fresh run by some moves, on any flows and at any times, and the calls that
were made on the way. -/
inductive Lives (e : LiveEngine) : List (Move × Answer) → Stage → Prop
  | fresh {t : Stage} (hrun : t.run.IsFresh) (hcalls : t.calls = []) : Lives e [] t
  | move {past : List (Move × Answer)} {t t' : Stage} {flow : Flow} {now : Instant} {m : Move}
      {a : Answer} (h : Lives e past t) (hplay : (e.play flow now m).run t = .ok a t') :
      Lives e (past ++ [(m, a)]) t'

end LiveEngine

inductive Engine.Lived (e : Engine) : List (Move × Answer) → Session → Prop
  | fresh {s : Session} (hrun : s.run.IsFresh) (hnotices : s.log.notices = []) : Lived e [] s
  | move {past : List (Move × Answer)} {s : Session} (flow : Flow) (now : Instant) (m : Move)
      (h : Lived e past s) :
      Lived e (past ++ [(m, (e.play flow now s m).2)]) (e.play flow now s m).1

/-- A live engine goes through what the engine alone goes through. -/
theorem LiveEngine.Lives.lived {e : LiveEngine} {past : List (Move × Answer)} {t : Stage}
    (h : e.Lives past t) : ∃ s, e.engine.Lived past s ∧ s.stage e [] = t := by
  induction h with
  | @fresh t hrun hcalls =>
    refine ⟨⟨t.run, t.drawn, t.reviews, []⟩, .fresh hrun rfl, ?_⟩
    simp [Session.stage, Listeners.tellAll, ← hcalls]
  | @move past t t' flow now m a _ hplay ih =>
    obtain ⟨s, hlived, rfl⟩ := ih
    have hdoes : (e.play flow now m).run (s.stage e []) =
        .ok (e.engine.play flow now s m).2 ((e.engine.play flow now s m).1.stage e []) :=
      does_play m []
    rw [hdoes] at hplay
    cases hplay
    exact ⟨_, .move flow now m hlived, rfl⟩

theorem Engine.Lived.strokes {e : Engine} {past : List (Move × Answer)} {s : Session}
    (h : e.Lived past s) :
    ∃ s₀ : Session, s₀.run.IsFresh ∧ s₀.log.notices = [] ∧ e.Strokes s₀ s := by
  induction h with
  | @fresh s hrun hnotices => exact ⟨s, hrun, hnotices, .refl⟩
  | move flow now m _ ih =>
    obtain ⟨s₀, hrun, hnotices, hstrokes⟩ := ih
    exact ⟨s₀, hrun, hnotices, hstrokes.trans (strokes_play m)⟩

/-- What holds of fresh sessions, and is kept by all shifts, holds of all that a session goes
through, if executions have different identifiers. -/
theorem Engine.Lived.induct {e : Engine} {past : List (Move × Answer)} {s : Session}
    {P : Session → Prop} (h : e.Lived past s) (differ : s.run.executionIds.Nodup)
    (hfresh : ∀ t : Session, t.run.IsFresh → t.log.notices = [] → P t)
    (hshift : ∀ t t' : Session, t.run.executionIds.Nodup → t'.run.executionIds.Nodup →
      t.Shift t' →
      P t → P t') : P s := by
  obtain ⟨s₀, hrun, hnotices, hstrokes⟩ := h.strokes
  exact hstrokes.induct differ (hfresh s₀ hrun hnotices) hshift

section Prefix

variable {α : Type} {l : Listeners}

theorem Listener.prefix_hear (l : Option (Listener α)) (calls : List Call) (event : Event) :
    calls <+: Listener.hear l calls event := by
  cases l with
  | none => exact List.prefix_refl _
  | some answer => exact List.prefix_append _ _

theorem Call.prefix_foldl {tell : List Call → α → List Call}
    (h : ∀ calls a, calls <+: tell calls a)
    (as : List α) (calls : List Call) : calls <+: as.foldl tell calls := by
  induction as generalizing calls with
  | nil => exact List.prefix_refl _
  | cons a rest ih => exact (h calls a).trans (ih _)

theorem Listeners.prefix_sendLink (hours : UInt32) (execution step : String) (calls : List Call)
    (contact : Assignee) : calls <+: l.sendLink hours execution step calls contact := by
  unfold sendLink
  split
  · exact List.prefix_refl _
  · dsimp only
    split
    · exact List.prefix_append _ _
    · split
      · exact List.prefix_append _ _
      · exact (List.prefix_append _ _).trans (Listener.prefix_hear _ _ _)

theorem Listeners.prefix_startSubFlow (execution : String) (step : Step) (calls : List Call) :
    calls <+: l.startSubFlow execution step calls := by
  unfold startSubFlow
  split
  · exact Listener.prefix_hear _ _ _
  · exact List.prefix_refl _

/-- Calls that were made stay made. -/
theorem Listeners.prefix_tell (hours : UInt32) (calls : List Call) (n : Notice) :
    calls <+: l.tell hours calls n := by
  cases n with
  | resolved | reviewed => exact List.prefix_append _ _
  | activated x step flowDue timers =>
    have hset := Call.prefix_foldl
      (fun calls timer => Listener.prefix_hear l.timers calls (.schedule x.id timer)) timers calls
    have hsub := prefix_startSubFlow (l := l) x.id step
    have hlinks := Call.prefix_foldl (prefix_sendLink (l := l) hours x.id step.id) x.contacts
    exact ((hset.trans (Listener.prefix_hear _ _ _)).trans (hsub _)).trans (hlinks _)
  | completed =>
    exact ((Listener.prefix_hear _ _ _).trans (Listener.prefix_hear _ _ _)).trans
      (Listener.prefix_hear _ _ _)
  | failed | automated => exact Listener.prefix_hear _ _ _
  | ended status left =>
    have hleft := Call.prefix_foldl
      (fun calls id => Listener.prefix_hear l.timers calls (.cancelAll id)) left calls
    unfold tell
    dsimp only
    split
    · exact hleft.trans (Listener.prefix_hear _ _ _)
    · exact hleft

end Prefix

/-- What is noted next is heard next. -/
theorem Session.heard_next {e : LiveEngine} {s s' : Session} {ns : List Notice} (calls : List Call)
    (h : s'.log.notices = s.log.notices ++ ns) :
    ∃ new, (s'.stage e calls).calls = (s.stage e calls).calls ++ new ∧
      ∀ {β : Type} {f : Event → Option β}, e.listeners.Concern f →
        heard f new = (ns.flatMap Notice.events).filterMap f := by
  have hcalls : (s'.stage e calls).calls =
      e.listeners.tellAll e.hours (s.stage e calls).calls ns := by
    simp [Session.stage, Listeners.tellAll, h]
  obtain ⟨new, hnew⟩ : (s.stage e calls).calls <+: (s'.stage e calls).calls := by
    rw [hcalls]
    exact Call.prefix_foldl (Listeners.prefix_tell e.hours) ns _
  refine ⟨new, hnew.symm, fun hconcern => ?_⟩
  have hheard := Listeners.heard_tellAll hconcern e.hours (s.stage e calls).calls ns
  rw [← hcalls, ← hnew, heard_append] at hheard
  exact List.append_cancel_left hheard

/-- Who listens to a live engine hears of all that there was to tell. -/
theorem Session.heard_stage {β : Type} {f : Event → Option β} {e : LiveEngine}
    (h : e.listeners.Concern f) (s : Session) :
    heard f (s.stage e []).calls = s.events.filterMap f :=
  Listeners.heard_tellAll h e.hours [] s.log.notices

end Workflow
