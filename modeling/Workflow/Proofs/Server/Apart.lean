import Mathlib.Order.Monotone.Basic
import Workflow.Proofs.Alike
import Workflow.Proofs.Course
import Workflow.Proofs.Server.History

namespace Workflow.Server

/-- The same server with identifiers and reviews numbered otherwise. -/
def renumbered (server : Server) (ids reviews : Nat → Nat) : Server :=
  { server with
    engine := { server.engine with
      newId := fun kind n => server.engine.newId kind (ids n)
      advisers := { server.engine.advisers with
        reviewer := server.engine.advisers.reviewer.map fun answer n => answer (reviews n) } } }

namespace Request

/-- Whether a request is about flows, or names a run. -/
def mayConcern (run : String) (q : Request) : Bool :=
  q.isOnFlows || q.run? == some run

def isEdit : Request → Bool
  | .editFlow _ _ => true
  | _ => false

end Request

/-- What stays of a history before the start of a run, without the requests about other runs. -/
def earlier (run : String) (history : History) : History :=
  history.filter fun q => q.2.mayConcern run

/-- What stays of a history after the start of a run, without the requests about other runs and
without edits. -/
def later (run : String) (history : History) : History :=
  history.filter fun q => q.2.mayConcern run && !q.2.isEdit

/-- The requests of a transcript that name a run, with their answers. -/
def answersOn (run : String) (transcript : List (Request × Except Error Response)) :
    List (Request × Except Error Response) :=
  transcript.filter fun q => q.1.run? == some run

/-- Numbers in ascending order from the one of `first` on, which is at least `least`. -/
structure Ascends (f : Nat → Nat) (first least : Nat) : Prop where
  least : least ≤ f first
  step : ∀ j, first ≤ j → f j < f (j + 1)

/-- A numbering continued towards the front, without gaps. -/
def continued (shift first : Nat) (f : Nat → Nat) (j : Nat) : Nat :=
  if j < first then j + shift else f j

theorem continued_of_lt {shift first j : Nat} (f : Nat → Nat) (h : j < first) :
    continued shift first f j = j + shift :=
  if_pos h

theorem continued_of_le {shift first j : Nat} (f : Nat → Nat) (h : first ≤ j) :
    continued shift first f j = f j :=
  if_neg (Nat.not_lt.mpr h)

theorem Ascends.weaken {f : Nat → Nat} {first least least' : Nat} (h : Ascends f first least)
    (hle : least' ≤ least) : Ascends f first least' :=
  ⟨Nat.le_trans hle h.least, h.step⟩

theorem Ascends.continued {f : Nat → Nat} {first least shift : Nat} (h : Ascends f first least)
    (hleast : first + shift ≤ least) {start : Nat} (hstart : start ≤ first) :
    Ascends (continued shift first f) start (start + shift) where
  least := by
    by_cases hbefore : start < first
    · rw [continued_of_lt f hbefore]
    · obtain rfl : start = first := by omega
      rw [continued_of_le f (Nat.le_refl _)]
      exact Nat.le_trans hleast h.least
  step j hj := by
    have hfirst := h.least
    rcases Nat.lt_trichotomy (j + 1) first with hlt | rfl | hge
    · rw [continued_of_lt f (by omega), continued_of_lt f hlt]
      omega
    · rw [continued_of_lt f (by omega), continued_of_le f (Nat.le_refl _)]
      omega
    · rw [continued_of_le f (by omega), continued_of_le f (by omega)]
      exact h.step j (by omega)

theorem Ascends.strictMono {f : Nat → Nat} {least : Nat} (h : Ascends f 0 least) : StrictMono f :=
  strictMono_nat_of_lt_succ fun j => h.step j (Nat.zero_le j)

/-- Two states that hold one run alike, the second with the counters set back. The run was started
under the number `number`. -/
structure Beside (server : Server) (number : Nat) (S T : State) : Prop where
  keyed : S.Keyed
  keyed' : T.Keyed
  run : S.run? (server.engine.newId "run" number) = T.run? (server.engine.newId "run" number)
  started : number < S.log.drawn
  drawn : T.log.drawn ≤ S.log.drawn
  reviews : T.log.reviews ≤ S.log.reviews

/-- The pace of a call on a run in both states, when the call draws identifiers below `last`. -/
def pace (S T : State) (last : Nat) : Pace where
  shift := S.log.drawn - T.log.drawn
  first := S.log.drawn
  last := last
  reviews n n' := n + (S.log.reviews - T.log.reviews) = n'

section Numbering

variable {server : Server} {S T : State} {ids reviews : Nat → Nat}

/-- A server with other numbers draws the same identifiers under them. -/
theorem agrees_renumbered (reviews : Nat → Nat) {last : Nat}
    (hdrawn : T.log.drawn ≤ S.log.drawn)
    (hids : ∀ j, T.log.drawn ≤ j → j + (S.log.drawn - T.log.drawn) < last →
      ids j = j + (S.log.drawn - T.log.drawn)) :
    (server.renumbered ids reviews).engine.Agrees server.engine (pace S T last) where
  policy := rfl
  catalogue := rfl
  newId kind n hfirst hlast := by
    simp only [pace] at hfirst hlast
    exact congrArg (server.engine.newId kind) (hids n (by omega) hlast)
  assignees _ _ := rfl
  counted n n' h := by
    simp only [pace] at h ⊢
    unfold Engine.counted renumbered
    cases server.engine.advisers.reviewer with
    | none => exact h
    | some answer =>
      simp only [Option.map_some, Option.isSome_some, if_true]
      omega

theorem alike_sessions {last : Nat} (hdrawn : T.log.drawn ≤ S.log.drawn)
    (hreviews : T.log.reviews ≤ S.log.reviews) (r : Run) :
    Session.Alike (pace S T last) ⟨r, T.log⟩ ⟨r, S.log⟩ where
  run := rfl
  drawn := by
    simp only [pace]
    omega
  first := Nat.le_refl _
  reviews := by
    simp only [pace]
    omega

theorem judgeAlike_renumbered {last : Nat} (r : Run)
    (hreviews : S.log.reviews < last → reviews T.log.reviews = S.log.reviews) :
    Engine.JudgeAlike (server.renumbered ids reviews).engine server.engine
      ⟨r, T.log⟩ ⟨r, S.log⟩
      last := by
  by_cases hlast : S.log.reviews < last
  · refine .inl fun step result => ?_
    unfold Engine.verdict renumbered
    cases server.engine.advisers.reviewer with
    | none => rfl
    | some answer =>
      simp only [Option.map_some, hreviews hlast]
  · refine .inr ⟨?_, Nat.le_of_not_lt hlast⟩
    simp [renumbered]

end Numbering

/-- What becomes of both states at a call on the run. -/
structure Advances (server : Server) (number : Nat) (S T S' T' : State) : Prop where
  beside : Beside server number S' T'
  drawn : T'.log.drawn + (S.log.drawn - T.log.drawn) = S'.log.drawn
  reviews : T'.log.reviews + (S.log.reviews - T.log.reviews) = S'.log.reviews

section Calls

variable {server : Server} {number : Nat} {S T : State} {now : Instant}

theorem Beside.advances (h : Beside server number S T) : Advances server number S T S T :=
  ⟨h, by have := h.drawn; omega, by have := h.reviews; omega⟩

theorem Beside.moved (h : Beside server number S T) {s s' : Session} {last : Nat}
    (halike : s.Alike (pace S T last) s') (r : Store.RunRecord Document.Flow) :
    Advances server number S T (S.moved s' r now) (T.moved s r now) := by
  have hdrawn := halike.drawn
  have hfirst := halike.first
  have hreviews := halike.reviews
  simp only [pace] at hdrawn hfirst hreviews
  have hstarted := h.started
  refine ⟨⟨h.keyed.moved now s' r, h.keyed'.moved now s r, ?_, ?_, ?_, ?_⟩,
    hdrawn, hreviews⟩
  · rw [State.run?_moved, State.run?_moved, halike.run, h.run]
  · exact Nat.lt_of_lt_of_le hstarted hfirst
  · exact hdrawn ▸ Nat.le_add_right _ _
  · exact hreviews ▸ Nat.le_add_right _ _

variable {ids reviews : Nat → Nat}

/-- A move of the run does the same on both sides. -/
theorem Beside.serve_move (h : Beside server number S T) (purpose : Purpose) (move : Move)
    {S' : State} {answer : Except Error Response}
    (hserve : outcome S (fun (r, a) => .moved r a)
      (moveRun server S now purpose (server.engine.newId "run" number) move) = (S', answer))
    (hids : ∀ j, T.log.drawn ≤ j → j + (S.log.drawn - T.log.drawn) < S'.log.drawn →
      ids j = j + (S.log.drawn - T.log.drawn))
    (hreviews : S.log.reviews < S'.log.reviews → reviews T.log.reviews = S.log.reviews) :
    ∃ T', outcome T (fun (r, a) => .moved r a)
      (moveRun (server.renumbered ids reviews) T now purpose
        (server.engine.newId "run" number) move) = (T', answer) ∧
      Advances server number S T S' T' := by
  rw [moveRun_eq h.keyed']
  rw [moveRun_eq h.keyed, h.run] at hserve
  cases hrun : T.run? (server.engine.newId "run" number) with
  | none =>
    rw [hrun] at hserve
    cases hserve
    exact ⟨T, rfl, h.advances⟩
  | some r =>
    cases hdocument : decoded r.document with
    | error e =>
      simp only [hrun, hdocument, error_bind] at hserve ⊢
      cases hserve
      exact ⟨T, rfl, h.advances⟩
    | ok f =>
      simp only [hrun, hdocument, ok_bind] at hserve ⊢
      obtain ⟨hstate, hanswer⟩ := Prod.mk.inj hserve
      subst hstate
      obtain ⟨halike, hsame⟩ := Engine.play_alike (agrees_renumbered reviews h.drawn hids)
        (alike_sessions h.drawn h.reviews r.run) move (judgeAlike_renumbered r.run hreviews)
        (Nat.le_refl _)
      refine ⟨_, ?_, h.moved halike r⟩
      rw [← hanswer]
      simp only [outcome, halike.run, hsame]

/-- So does a call that notes something in it. -/
theorem Beside.serve_noted (h : Beside server number S T) (purpose : Purpose)
    {change : Session → Session × Bool}
    (hchange : ∀ {p : Pace} {s s' : Session}, s.Alike p s' →
      (change s).1.Alike p (change s').1 ∧ (change s).2 = (change s').2)
    {S' : State} {answer : Except Error Response}
    (hserve : outcome S .settled (S.noted now purpose (server.engine.newId "run" number) change) =
      (S', answer)) :
    ∃ T', outcome T .settled (T.noted now purpose (server.engine.newId "run" number) change) =
        (T', answer) ∧ Advances server number S T S' T' := by
  unfold State.noted at hserve ⊢
  rw [h.run] at hserve
  cases hrun : T.run? (server.engine.newId "run" number) with
  | none =>
    rw [hrun] at hserve
    cases hserve
    exact ⟨T, rfl, h.advances⟩
  | some r =>
    simp only [hrun] at hserve ⊢
    have hsessions : Session.Alike (pace S T S'.log.drawn) ⟨r.run, T.log⟩ ⟨r.run, S.log⟩ :=
      alike_sessions h.drawn h.reviews r.run
    obtain ⟨halike, hdone⟩ := hchange hsessions
    rw [hdone]
    cases hdid : (change ⟨r.run, S.log⟩).2 with
    | false =>
      rw [hdid] at hserve
      cases hserve
      exact ⟨T, rfl, h.advances⟩
    | true =>
      rw [hdid] at hserve
      cases hserve
      exact ⟨_, rfl, h.moved halike r⟩

/-- A request that names the run is answered alike in both states. -/
theorem Beside.serve (h : Beside server number S T) {q : Request}
    (hq : q.run? = some (server.engine.newId "run" number)) {S' : State}
    {answer : Except Error Response} (hserve : server.serve S now q = (S', answer))
    (hids : ∀ j, T.log.drawn ≤ j → j + (S.log.drawn - T.log.drawn) < S'.log.drawn →
      ids j = j + (S.log.drawn - T.log.drawn))
    (hreviews : S.log.reviews < S'.log.reviews → reviews T.log.reviews = S.log.reviews) :
    ∃ T', (server.renumbered ids reviews).serve T now q = (T', answer) ∧
      Advances server number S T S' T' := by
  cases q with
  | getRun id =>
    cases hq
    simp only [Server.serve, getRun_eq, h.run] at hserve ⊢
    cases hserve
    exact ⟨T, rfl, h.advances⟩
  | completeStep id execution result flags =>
    cases hq
    exact h.serve_move _ _ hserve hids hreviews
  | submitAssignment id execution assignment result =>
    cases hq
    exact h.serve_move _ _ hserve hids hreviews
  | recordEscalation id execution =>
    cases hq
    simp only [Server.serve, recordEscalation_eq h.keyed,
      recordEscalation_eq h.keyed'] at hserve ⊢
    exact h.serve_noted _ (fun halike => Engine.escalate_alike halike now execution) hserve
  | markStepFailed id execution reason =>
    cases hq
    simp only [Server.serve, markStepFailed_eq h.keyed, markStepFailed_eq h.keyed'] at hserve ⊢
    exact h.serve_noted _ (fun halike => Engine.fail_alike halike now execution reason) hserve
  | createFlow f => cases hq
  | getFlow id => cases hq
  | editFlow id edits => cases hq
  | checkFlow id => cases hq
  | startRun flowId name kickoff => cases hq

/-- Requests that do not name the run leave it as it is. -/
theorem Beside.passed (unique : Function.Injective (server.engine.newId "run"))
    (h : Beside server number S T) (now : Instant) {q : Request}
    (hq : q.run? ≠ some (server.engine.newId "run" number)) :
    Beside server number (server.serve S now q).1 T := by
  obtain ⟨hdrawn, hreviews⟩ := server.log_serve now h.keyed q
  refine ⟨server.keyed_serve now h.keyed q, h.keyed', ?_, Nat.lt_of_lt_of_le h.started hdrawn,
    Nat.le_trans h.drawn hdrawn, Nat.le_trans h.reviews hreviews⟩
  rw [← h.run]
  rcases server.serve_cases now h.keyed q with
    hsame | ⟨r, _, hkeep⟩ | ⟨s, r, hmoved, _, _, hnamed | hdrawn⟩
  · rw [hsame]
  · rw [hkeep, State.run?_keep_flow]
  · rw [hmoved, State.run?_moved, if_neg]
    rintro heq
    exact hq (hnamed.trans (congrArg some heq.symm))
  · rw [hmoved, State.run?_moved, if_neg]
    rintro heq
    -- A run that is started now has a number that no run had before.
    have hnumber : number = S.log.drawn := unique (heq.trans hdrawn)
    exact absurd h.started (by omega)

/-- So does a request about flows on the other side, and it draws nothing there. -/
theorem Beside.passed' (h : Beside server number S T) (other : Server) (now : Instant) {q : Request}
    (hq : q.isOnFlows = true) :
    Beside server number S (other.serve T now q).1 ∧ (other.serve T now q).1.log = T.log := by
  rcases other.serve_flows now h.keyed' hq with hsame | ⟨r, hkeep⟩
  · rw [hsame]
    exact ⟨h, rfl⟩
  · rw [hkeep]
    exact ⟨⟨h.keyed, h.keyed'.keep _, by rw [State.run?_keep_flow]; exact h.run, h.started,
      h.drawn, h.reviews⟩, rfl⟩

end Calls

section Histories

variable {server : Server} {number : Nat}

/-- A numbering under which the server takes the requests that stay as it took them among the
others, from some numbers on. -/
structure Numbers (server : Server) (number : Nat) (S : State) (rest : History) (m k : Nat)
    (ids reviews : Nat → Nat) : Prop where
  drawn : Ascends ids m S.log.drawn
  reviewed : Ascends reviews k S.log.reviews
  alike : ∀ ids' reviews' : Nat → Nat, (∀ j, m ≤ j → ids' j = ids j) →
    (∀ j, k ≤ j → reviews' j = reviews j) → ∀ T : State, Beside server number S T →
    T.log.drawn = m → T.log.reviews = k →
      answersOn (server.engine.newId "run" number) ((server.renumbered ids' reviews').transcript T
          (later (server.engine.newId "run" number) rest)) =
        answersOn (server.engine.newId "run" number) (server.transcript S rest) ∧
      ((server.renumbered ids' reviews').after T
          (later (server.engine.newId "run" number) rest)).run? (server.engine.newId "run" number) =
        (server.after S rest).run? (server.engine.newId "run" number)

theorem later_cons {run : String} {now : Instant} {q : Request} (rest : History) :
    later run ((now, q) :: rest) =
      if q.run? = some run ∨
        (q.isOnFlows = true ∧ q.isEdit = false) then (now, q) :: later run rest
      else later run rest := by
  have hkept : (q.mayConcern run && !q.isEdit) = true ↔
      q.run? = some run ∨ (q.isOnFlows = true ∧ q.isEdit = false) := by
    cases q <;> simp [Request.mayConcern, Request.isOnFlows, Request.isEdit, Request.run?]
  simp only [later, List.filter_cons, hkept]

theorem answersOn_cons {run : String} {q : Request} {answer : Except Error Response}
    (rest : List (Request × Except Error Response)) :
    answersOn run ((q, answer) :: rest) =
      if q.run? = some run then (q, answer) :: answersOn run rest else answersOn run rest := by
  unfold answersOn
  rw [List.filter_cons]
  by_cases h : q.run? = some run <;> simp [h]

theorem Numbers.skip (unique : Function.Injective (server.engine.newId "run")) {S : State}
    {now : Instant} {q : Request} {rest : History} {m k : Nat} {ids reviews : Nat → Nat}
    (keyed : S.Keyed) (hq : q.run? ≠ some (server.engine.newId "run" number))
    (h : Numbers server number (server.serve S now q).1 rest m k ids reviews) :
    Numbers server number S ((now, q) :: rest) m k ids reviews := by
  obtain ⟨hdrawn, hreviews⟩ := server.log_serve now keyed q
  refine ⟨h.drawn.weaken hdrawn, h.reviewed.weaken hreviews, ?_⟩
  intro ids' reviews' hids' hreviews' T hT hm hk
  have hpassed := hT.passed unique now hq
  rw [later_cons, transcript, answersOn_cons, if_neg hq]
  by_cases hstays : q.isOnFlows = true ∧ q.isEdit = false
  · obtain ⟨hbeside, hlog⟩ := hpassed.passed' (server.renumbered ids' reviews') now hstays.1
    rw [if_pos (.inr hstays), transcript, answersOn_cons, if_neg hq]
    exact h.alike ids' reviews' hids' hreviews' _ hbeside (by rw [hlog, hm]) (by rw [hlog, hk])
  · rw [if_neg (by tauto)]
    exact h.alike ids' reviews' hids' hreviews' T hpassed hm hk

theorem Numbers.serve {S : State} {now : Instant} {q : Request} {rest : History} {m k : Nat}
    {ids reviews : Nat → Nat} (keyed : S.Keyed) (hm : m ≤ S.log.drawn)
    (hk : k ≤ S.log.reviews)
    (hq : q.run? = some (server.engine.newId "run" number))
    (h : Numbers server number (server.serve S now q).1 rest
      (m + ((server.serve S now q).1.log.drawn - S.log.drawn))
      (k + ((server.serve S now q).1.log.reviews - S.log.reviews)) ids reviews) :
    Numbers server number S ((now, q) :: rest) m k
      (continued (S.log.drawn - m) (m + ((server.serve S now q).1.log.drawn - S.log.drawn)) ids)
      (continued (S.log.reviews - k) (k + ((server.serve S now q).1.log.reviews - S.log.reviews))
        reviews) := by
  obtain ⟨hdrawn, hreviews⟩ := server.log_serve now keyed q
  refine ⟨?_, ?_, ?_⟩
  · exact (h.drawn.continued (by omega) (by omega)).weaken (by omega)
  · exact (h.reviewed.continued (by omega) (by omega)).weaken (by omega)
  · intro ids' reviews' hids' hreviews' T hT hTm hTk
    have hnumbered : ∀ j, T.log.drawn ≤ j →
        j + (S.log.drawn - T.log.drawn) < (server.serve S now q).1.log.drawn →
        ids' j = j + (S.log.drawn - T.log.drawn) := by
      intro j hj hlast
      rw [hids' j (by omega), continued_of_lt ids (by omega), hTm]
    have hreviewed : S.log.reviews < (server.serve S now q).1.log.reviews →
        reviews' T.log.reviews = S.log.reviews := by
      intro hmore
      rw [hreviews' _ (by omega), continued_of_lt reviews (by omega)]
      omega
    have hfull : server.serve S now q = ((server.serve S now q).1, (server.serve S now q).2) := rfl
    obtain ⟨T', hserve, hadvances⟩ := hT.serve hq hfull hnumbered hreviewed
    have hdrawn' := hadvances.drawn
    have hasked' := hadvances.reviews
    obtain ⟨halike, hrun⟩ := h.alike ids' reviews'
      (fun j hj => (hids' j (by omega)).trans (continued_of_le ids hj))
      (fun j hj => (hreviews' j (by omega)).trans (continued_of_le reviews hj))
      T' hadvances.beside (by omega) (by omega)
    rw [later_cons, if_pos (.inl hq), transcript, transcript, answersOn_cons, answersOn_cons,
      if_pos hq, if_pos hq, hserve]
    refine ⟨congrArg _ halike, ?_⟩
    rw [after, List.foldl_cons, hserve]
    exact hrun

/-- Every history has numbers under which a run goes on without the others as it went among them. -/
theorem exists_numbers (unique : Function.Injective (server.engine.newId "run")) (number : Nat)
    (rest : History) {S : State} {m k : Nat} (keyed : S.Keyed) (hm : m ≤ S.log.drawn)
    (hk : k ≤ S.log.reviews) : ∃ ids reviews, Numbers server number S rest m k ids reviews := by
  -- The numbers are found from the end of the history on. A request on the run adds those in front
  -- under which it draws itself; any other request only leaves room below them.
  induction rest generalizing S m k with
  | nil =>
    refine ⟨fun j => j + (S.log.drawn - m), fun j => j + (S.log.reviews - k),
      ⟨by omega, by omega⟩, ⟨by omega, by omega⟩,
      fun _ _ _ _ T h _ _ => ⟨rfl, h.run.symm⟩⟩
  | cons head rest ih =>
    obtain ⟨now, q⟩ := head
    have keyed' := server.keyed_serve now keyed q
    obtain ⟨hdrawn, hreviews⟩ := server.log_serve now keyed q
    by_cases hq : q.run? = some (server.engine.newId "run" number)
    · obtain ⟨ids, reviews, h⟩ := ih keyed'
        (show m + ((server.serve S now q).1.log.drawn - S.log.drawn) ≤ _ by omega)
        (show k + ((server.serve S now q).1.log.reviews - S.log.reviews) ≤ _ by omega)
      exact ⟨_, _, h.serve keyed hm hk hq⟩
    · obtain ⟨ids, reviews, h⟩ := ih keyed' (Nat.le_trans hm hdrawn) (Nat.le_trans hk hreviews)
      exact ⟨ids, reviews, h.skip unique keyed hq⟩

end Histories

section Start

variable {server other : Server} {S T : State} {now : Instant} {run : String}

/-- Two states that hold the same flows, the second without any run. -/
structure Ahead (S T : State) : Prop where
  keyed : S.Keyed
  keyed' : T.Keyed
  flow : ∀ id, S.flow? id = T.flow? id
  run : ∀ id, T.run? id = none
  drawn : T.log.drawn = 0
  reviews : T.log.reviews = 0

theorem Ahead.initial : Ahead {} {} :=
  ⟨State.keyed_initial, State.keyed_initial, fun _ => rfl, fun _ => rfl, rfl, rfl⟩

theorem Ahead.keep (h : Ahead S T) (r : Store.FlowRecord Document.Flow) :
    Ahead (S.keep (.flow r)) (T.keep (.flow r)) where
  keyed := h.keyed.keep _
  keyed' := h.keyed'.keep _
  flow id := by rw [State.flow?_keep_flow, State.flow?_keep_flow, h.flow]
  run id := by rw [State.run?_keep_flow, h.run]
  drawn := h.drawn
  reviews := h.reviews

/-- A request about flows does the same on both sides. -/
theorem Ahead.serve_flows (hprintable : other.printable = server.printable) (h : Ahead S T)
    {q : Request} (hq : q.isOnFlows = true) :
    Ahead (server.serve S now q).1 (other.serve T now q).1 := by
  cases q with
  | createFlow f =>
    simp only [serve, createFlow_eq, h.flow, hprintable]
    split
    · exact h
    · split
      · exact h
      · split
        · exact h
        · split
          · exact h
          · exact h.keep _
  | editFlow id edits =>
    simp only [serve, editFlow_eq h.keyed, editFlow_eq h.keyed', h.flow, hprintable]
    split
    · exact h
    · rename_i r _
      cases decoded r.document with
      | error e => exact h
      | ok f =>
        simp only [ok_bind]
        split
        · exact h
        · split
          · exact h
          · exact h.keep _
  | getFlow id => exact h
  | checkFlow id => exact h
  | startRun flowId name kickoff => cases hq
  | getRun id => cases hq
  | completeStep id execution result flags => cases hq
  | submitAssignment id execution assignment result => cases hq
  | recordEscalation id execution => cases hq
  | markStepFailed id execution reason => cases hq

theorem Ahead.serve_runs (h : Ahead S T) {q : Request} (hq : q.isOnFlows = false) :
    Ahead (server.serve S now q).1 T :=
  ⟨server.keyed_serve now h.keyed q, h.keyed',
    fun id => by rw [server.flow?_serve now h.keyed hq, h.flow], h.run, h.drawn, h.reviews⟩

/-- A run that is not there is not found. -/
theorem serve_missing {q : Request} (hq : q.run? = some run) (now : Instant) :
    ∃ purpose, ∀ (server : Server) (S : State), S.Keyed → S.run? run = none →
      server.serve S now q = (S, .error (.runMissing purpose run)) := by
  cases q with
  | getRun id =>
    cases hq
    exact ⟨.getRun, fun server S _ hnone => by simp only [serve, getRun_eq, hnone]; rfl⟩
  | completeStep id execution result flags =>
    cases hq
    refine ⟨.completeStep, fun server S keyed hnone => ?_⟩
    simp only [serve, completeStep, moveRun_eq keyed, hnone]
    rfl
  | submitAssignment id execution assignment result =>
    cases hq
    refine ⟨.submitAssignment, fun server S keyed hnone => ?_⟩
    simp only [serve, submitAssignment, moveRun_eq keyed, hnone]
    rfl
  | recordEscalation id execution =>
    cases hq
    refine ⟨.recordEscalation, fun server S keyed hnone => ?_⟩
    simp only [serve, recordEscalation_eq keyed, State.noted, hnone]
    rfl
  | markStepFailed id execution reason =>
    cases hq
    refine ⟨.markStepFailed, fun server S keyed hnone => ?_⟩
    simp only [serve, markStepFailed_eq keyed, State.noted, hnone]
    rfl
  | createFlow f => cases hq
  | getFlow id => cases hq
  | editFlow id edits => cases hq
  | checkFlow id => cases hq
  | startRun flowId name kickoff => cases hq

/-- A run that is there stays there. -/
theorem run?_serve_isSome (keyed : S.Keyed) (q : Request) (h : (S.run? run).isSome) :
    ((server.serve S now q).1.run? run).isSome := by
  rcases server.serve_cases now keyed q with hsame | ⟨r, _, hkeep⟩ | ⟨s, r, hmoved, _⟩
  · rwa [hsame]
  · rwa [hkeep, State.run?_keep_flow]
  · rw [hmoved, State.run?_moved]
    split
    · rfl
    · exact h

theorem run?_after_isSome (server : Server) (history : History) (keyed : S.Keyed)
    (h : (S.run? run).isSome) : ((server.after S history).run? run).isSome := by
  induction history generalizing S with
  | nil => exact h
  | cons q rest ih =>
    exact ih (server.keyed_serve q.1 keyed q.2) (run?_serve_isSome keyed q.2 h)

/-- Before the start of a run, the requests about other runs leave the flows as they are. -/
theorem Ahead.after (hprintable : other.printable = server.printable) (history : History)
    (h : Ahead S T) (absent : (server.after S history).run? run = none) :
    Ahead (server.after S history) (other.after T (earlier run history)) ∧
      answersOn run (other.transcript T (earlier run history)) =
        answersOn run (server.transcript S history) := by
  induction history generalizing S T with
  | nil => exact ⟨h, rfl⟩
  | cons head rest ih =>
    obtain ⟨now, q⟩ := head
    rw [transcript, answersOn_cons]
    by_cases hq : q.run? = some run
    · have hkept : earlier run ((now, q) :: rest) = (now, q) :: earlier run rest := by
        simp [earlier, Request.mayConcern, hq]
      -- If the run were there already, it would still be there before its start.
      have hnone : S.run? run = none := by
        cases hrun : S.run? run with
        | none => rfl
        | some r =>
          have hsome := server.run?_after_isSome ((now, q) :: rest) h.keyed
            (Option.isSome_of_mem hrun)
          rw [absent] at hsome
          cases hsome
      obtain ⟨purpose, hmissing⟩ := serve_missing hq now
      have hserve := hmissing server S h.keyed hnone
      have hserve' := hmissing other T h.keyed' (h.run run)
      simp only [Server.after, List.foldl_cons, hserve] at absent
      obtain ⟨hrest, hanswers⟩ := ih h absent
      rw [hkept, transcript, answersOn_cons, if_pos hq, if_pos hq, hserve, hserve']
      refine ⟨?_, congrArg _ hanswers⟩
      simpa only [Server.after, List.foldl_cons, hserve, hserve'] using hrest
    · rw [if_neg hq]
      by_cases hflows : q.isOnFlows = true
      · have hkept : earlier run ((now, q) :: rest) = (now, q) :: earlier run rest := by
          simp [earlier, Request.mayConcern, hflows]
        rw [hkept, transcript, answersOn_cons, if_neg hq]
        exact ih (h.serve_flows hprintable hflows) absent
      · have hdropped : earlier run ((now, q) :: rest) = earlier run rest := by
          simp [earlier, Request.mayConcern, hq, hflows]
        rw [hdropped]
        exact ih (h.serve_runs (by simpa using hflows)) absent

/-- A start that goes through, told by what it leaves. -/
theorem serve_started {flowId name : String} {kickoff : Record} {r : Run} {advance : Advance}
    (h : (server.serve S now (.startRun flowId name kickoff)).2 = .ok (.started r advance)) :
    ∃ record f s, S.flow? flowId = some record ∧ decoded record.document = .ok f ∧
      server.engine.start f now {} (server.freshRun S f name kickoff) = (s, advance) ∧
        s.run = r ∧
      r.id ≠ "" ∧ S.run? r.id = none ∧
      (server.serve S now (.startRun flowId name kickoff)).1 =
        S.moved s { run := r, flowVersion := record.version, document := record.document } now := by
  simp only [serve, startRun_eq] at h ⊢
  cases hrecord : S.flow? flowId with
  | none =>
    rw [hrecord] at h
    cases h
  | some record =>
    cases hdocument : decoded record.document with
    | error e =>
      simp only [hrecord, hdocument, error_bind] at h
      cases h
    | ok f =>
      simp only [hrecord, hdocument, ok_bind] at h ⊢
      rcases hstart : server.engine.start f now {} (server.freshRun S f name kickoff) with
        ⟨s, a⟩
      simp only [hstart] at h ⊢
      by_cases hgiven : s.run.id = ""
      · rw [if_pos hgiven] at h
        cases h
      · rw [if_neg hgiven] at h ⊢
        cases hrun : S.run? s.run.id with
        | some old =>
          rw [hrun] at h
          cases h
        | none =>
          rw [hrun] at h
          cases h
          exact ⟨record, f, s, rfl, hdocument, hstart, rfl, hgiven, hrun, rfl⟩

/-- The fresh run starts alike under numbers that begin with those that were to be drawn next. -/
theorem Ahead.started (h : Ahead S T) {ids : Nat → Nat} (reviews : Nat → Nat) {f : Flow}
    {name : String} {kickoff : Record} {s : Session} {advance : Advance}
    (hstart : server.engine.start f now {} (server.freshRun S f name kickoff) = (s, advance))
    (hids : ∀ j, j + S.log.drawn < s.log.drawn → ids j = j + S.log.drawn) :
    ∃ t, (server.renumbered ids reviews).engine.start f now {}
        ((server.renumbered ids reviews).freshRun T f name kickoff) = (t, advance) ∧
      t.Alike (pace S T s.log.drawn) s := by
  have hensues := server.engine.ensues_start f now (server.freshRun S f name kickoff) {}
  rw [hstart] at hensues
  have hlt : S.log.drawn < s.log.drawn := hensues.drawn
  have hdrawn := h.drawn
  have hreviews := h.reviews
  have agrees : (server.renumbered ids reviews).engine.Agrees server.engine
      (pace S T s.log.drawn) := by
    refine agrees_renumbered reviews (by omega) fun j _ hj => ?_
    rw [hdrawn, Nat.sub_zero] at hj ⊢
    exact hids j hj
  have hid : (server.renumbered ids reviews).engine.newId "run" T.log.drawn =
      server.engine.newId "run" S.log.drawn := by
    have hzero := hids 0 (by omega)
    rw [hdrawn]
    exact congrArg (server.engine.newId "run") (by omega)
  have hfresh : ((server.renumbered ids reviews).freshRun T f name kickoff).Alike
      (pace S T s.log.drawn) (server.freshRun S f name kickoff) := by
    refine ⟨?_, ?_, Nat.le_succ _, ?_⟩
    · simp only [freshRun, hid]
    · simp only [freshRun, pace]
      omega
    · simp only [freshRun, pace]
      omega
  obtain ⟨halike, hadvance⟩ := Engine.start_alike agrees hfresh {}
    (by rw [hstart]; exact Nat.le_refl _)
  rw [hstart] at halike hadvance
  exact ⟨_, Prod.ext rfl hadvance, halike⟩

/-- The run starts alike on both sides. -/
theorem Ahead.start (h : Ahead S T) {ids : Nat → Nat} (reviews : Nat → Nat)
    {flowId name : String} {kickoff : Record} {r : Run} {advance : Advance}
    (hstart : (server.serve S now (.startRun flowId name kickoff)).2 = .ok (.started r advance))
    (hids : ∀ j, j + S.log.drawn <
      (server.serve S now (.startRun flowId name kickoff)).1.log.drawn →
        ids j = j + S.log.drawn) :
    r.id = server.engine.newId "run" S.log.drawn ∧
      ∃ T', (server.renumbered ids reviews).serve T now (.startRun flowId name kickoff) =
          (T', .ok (.started r advance)) ∧
        Advances server S.log.drawn S T
          (server.serve S now (.startRun flowId name kickoff)).1 T' := by
  obtain ⟨record, f, s, hrecord, hdocument, hmove, rfl, hgiven, _, hstate⟩ :=
    serve_started hstart
  rw [hstate] at hids ⊢
  have hensues := server.engine.ensues_start f now (server.freshRun S f name kickoff) {}
  rw [hmove] at hensues
  obtain ⟨t, hmove', halike⟩ := h.started reviews hmove hids
  have hrun : t.run = s.run := halike.run
  have hdrawn := halike.drawn
  have hreviews := halike.reviews
  simp only [pace] at hdrawn hreviews
  refine ⟨hensues.id,
    T.moved t { run := s.run, flowVersion := record.version, document := record.document } now, ?_,
    ⟨h.keyed.moved now s _, h.keyed'.moved now t _, ?_, hensues.drawn, ?_, ?_⟩,
      hdrawn, hreviews⟩
  · simp only [serve, startRun_eq, ← h.flow, hrecord, hdocument, ok_bind, hmove', hrun,
      if_neg hgiven, h.run]
    rfl
  · have hnamed : server.engine.newId "run" S.log.drawn = s.run.id := hensues.id.symm
    rw [State.run?_moved, State.run?_moved, hrun, if_pos hnamed, if_pos hnamed]
  · exact hdrawn ▸ Nat.le_add_right _ _
  · exact hreviews ▸ Nat.le_add_right _ _

/-- The numbers for a whole run, from its start on. -/
theorem exists_numbers_started (unique : Function.Injective (server.engine.newId "run"))
    (keyed : S.Keyed) {flowId name : String} {kickoff : Record} {r : Run} {advance : Advance}
    (rest : History)
    (started : (server.serve S now (.startRun flowId name kickoff)).2 = .ok (.started r advance)) :
    ∃ ids reviews, StrictMono ids ∧ StrictMono reviews ∧ ∀ T, Ahead S T →
      ∃ T', (server.renumbered ids reviews).serve T now (.startRun flowId name kickoff) =
          (T', .ok (.started r advance)) ∧
        answersOn r.id ((server.renumbered ids reviews).transcript T' (later r.id rest)) =
          answersOn r.id (server.transcript
            (server.serve S now (.startRun flowId name kickoff)).1 rest) ∧
        ((server.renumbered ids reviews).after T' (later r.id rest)).run? r.id =
          (server.after (server.serve S now (.startRun flowId name kickoff)).1 rest).run? r.id := by
  obtain ⟨hdrawn, hreviews⟩ := server.log_serve now keyed (.startRun flowId name kickoff)
  obtain ⟨ids, reviews, h⟩ := exists_numbers unique S.log.drawn rest
    (server.keyed_serve now keyed (.startRun flowId name kickoff))
    (Nat.sub_le _ S.log.drawn) (Nat.sub_le _ S.log.reviews)
  refine ⟨continued S.log.drawn _ ids, continued S.log.reviews _ reviews,
    (h.drawn.continued (by omega) (Nat.zero_le _)).strictMono,
    (h.reviewed.continued (by omega) (Nat.zero_le _)).strictMono, fun T hahead => ?_⟩
  obtain ⟨hid, T', hserve, hadvances⟩ :=
    hahead.start (continued S.log.reviews _ reviews) started
    fun j hj => continued_of_lt ids (Nat.lt_sub_of_add_lt hj)
  have hdrawn' := hadvances.drawn
  have hreviews' := hadvances.reviews
  rw [hahead.drawn] at hdrawn'
  rw [hahead.reviews] at hreviews'
  rw [hid]
  exact ⟨T', hserve, h.alike _ _ (fun _ => continued_of_le ids)
    (fun _ => continued_of_le reviews) T'
    hadvances.beside (by omega) (by omega)⟩

end Start

theorem transcript_append (server : Server) (a b : History) (S : State) :
    server.transcript S (a ++ b) =
      server.transcript S a ++ server.transcript (server.after S a) b := by
  induction a generalizing S with
  | nil => rfl
  | cons q rest ih => simp only [List.cons_append, transcript, ih, after, List.foldl_cons]

theorem after_append (server : Server) (a b : History) (S : State) :
    server.after S (a ++ b) = server.after (server.after S a) b :=
  List.foldl_append

theorem answersOn_append (run : String) (a b : List (Request × Except Error Response)) :
    answersOn run (a ++ b) = answersOn run a ++ answersOn run b :=
  List.filter_append ..

theorem keyed_after (server : Server) (history : History) {S : State} (keyed : S.Keyed) :
    (server.after S history).Keyed := by
  induction history generalizing S with
  | nil => exact keyed
  | cons q rest ih => exact ih (server.keyed_serve q.1 keyed q.2)

/-- A run is the same among others and alone, and so is all that is answered to those who ask for
it: without the requests about other runs, and without the edits after it has started. All that
differs is under which numbers identifiers were drawn and reviews were asked for. -/
theorem runs_apart (server : Server) (unique : Function.Injective (server.engine.newId "run"))
    (before rest : History) (now : Instant) (flowId name : String) (kickoff : Record) (r : Run)
    (advance : Advance)
    (started : (server.serve (server.after {} before) now (.startRun flowId name kickoff)).2 =
      .ok (.started r advance)) :
    ∃ ids reviews, StrictMono ids ∧ StrictMono reviews ∧
      ((server.renumbered ids reviews).serve
          ((server.renumbered ids reviews).after {} (earlier r.id before)) now
          (.startRun flowId name kickoff)).2 = .ok (.started r advance) ∧
      answersOn r.id ((server.renumbered ids reviews).transcript {}
          (earlier r.id before ++ (now, .startRun flowId name kickoff) :: later r.id rest)) =
        answersOn r.id (server.transcript {}
          (before ++ (now, .startRun flowId name kickoff) :: rest)) ∧
      ((server.renumbered ids reviews).after {}
          (earlier r.id before ++ (now, .startRun flowId name kickoff) :: later r.id rest)).run?
            r.id =
        (server.after {} (before ++ (now, .startRun flowId name kickoff) :: rest)).run? r.id := by
  obtain ⟨_, _, _, _, _, _, _, _, absent, _⟩ := serve_started started
  obtain ⟨ids, reviews, hids, hreviews, h⟩ := exists_numbers_started unique
    (server.keyed_after before State.keyed_initial) rest started
  refine ⟨ids, reviews, hids, hreviews, ?_⟩
  have hprintable : (server.renumbered ids reviews).printable = server.printable := rfl
  generalize server.renumbered ids reviews = fewer at h hprintable ⊢
  obtain ⟨hahead, hbefore⟩ := Ahead.initial.after hprintable before absent
  obtain ⟨T, hserve, hanswers, hrun⟩ := h (fewer.after {} (earlier r.id before)) hahead
  refine ⟨by rw [hserve], ?_, ?_⟩
  · rw [transcript_append, transcript_append, answersOn_append, answersOn_append, hbefore,
      transcript, transcript, answersOn_cons, answersOn_cons, if_neg (by simp [Request.run?]),
      if_neg (by simp [Request.run?]), hserve]
    exact congrArg _ hanswers
  · rw [after_append, after_append, after, List.foldl_cons, hserve]
    exact hrun

namespace Sample

def line : Flow :=
  { Flow.empty "line" "" with steps := [Step.ofType "a" .form, Step.ofType "b" .form] }

def desk : Server :=
  { engine := Workflow.Sample.engine }

def morning : History :=
  [(⟨0⟩, .createFlow line), (⟨1⟩, .startRun "line" "other" [])]

def one : Run × Advance :=
  match (desk.serve (desk.after {} morning) ⟨2⟩ (.startRun "line" "one" [])).2 with
  | .ok (.started r advance) => (r, advance)
  | _ => ({}, {})

theorem started_one : (desk.serve (desk.after {} morning) ⟨2⟩ (.startRun "line" "one" [])).2 =
    .ok (.started one.1 one.2) := by
  cbv

/-- An edit of the flow, a step of the other run, and one of the second run. -/
def afternoon : History :=
  [(⟨3⟩, .editFlow "line" [.steps .mainPath (.remove "b")]),
    (⟨4⟩, .completeStep "run_" "exec_1" [] {}),
    (⟨5⟩, .completeStep one.1.id "exec_1111" [] {})]

end Sample

/-- A run goes its way while another run is completed and its flow is edited. -/
theorem runs_apart_one :
    Function.Injective (Sample.desk.engine.newId "run") ∧
    (Sample.desk.serve (Sample.desk.after {} Sample.morning) ⟨2⟩
      (.startRun "line" "one" [])).2 =
      .ok (.started Sample.one.1 Sample.one.2) ∧
    ∃ ids reviews, StrictMono ids ∧ StrictMono reviews ∧
      ((Sample.desk.renumbered ids reviews).after {} (earlier Sample.one.1.id Sample.morning ++
          (⟨2⟩, .startRun "line" "one" []) :: later Sample.one.1.id Sample.afternoon)).run?
          Sample.one.1.id =
        (Sample.desk.after {} (Sample.morning ++
          (⟨2⟩, .startRun "line" "one" []) :: Sample.afternoon)).run? Sample.one.1.id := by
  have unique : Function.Injective (Sample.desk.engine.newId "run") := by
    intro i j h
    have hstrokes := List.append_cancel_left (String.ofList_inj.mp h)
    simpa using congrArg List.length hstrokes
  obtain ⟨ids, reviews, hids, hreviews, _, _, hrun⟩ :=
    runs_apart Sample.desk unique Sample.morning
    Sample.afternoon ⟨2⟩ "line" "one" [] Sample.one.1 Sample.one.2 Sample.started_one
  exact ⟨unique, Sample.started_one, ids, reviews, hids, hreviews, hrun⟩

end Workflow.Server
