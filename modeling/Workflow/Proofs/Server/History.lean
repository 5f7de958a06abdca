import Workflow.Proofs.IdentifierKept
import Workflow.Proofs.Store.Isolation
import Workflow.Server.Flows
import Workflow.Server.Runs

namespace Workflow

namespace Store

variable {δ : Type}

/-- The committed state after a transaction that wrote one record. -/
def State.keep (s : State δ) (r : Stored δ) : State δ :=
  s.publish (s.begin.put r).working r.key

theorem State.stored?_keep (s : State δ) (r : Stored δ) (k : Key) :
    (s.keep r).stored? k = if k = r.key then some r else s.stored? k := by
  have hput := Transaction.stored?_put s.begin r
  rw [keep, State.stored?_publish (by simp [hput])]
  by_cases hk : k = r.key
  · rw [if_pos hk, if_pos hk, hput, if_pos hk]
  · rw [if_neg hk, if_neg hk]

/-- With nobody else at work, a transaction commits. -/
theorem Transaction.commit_put (s : State δ) (r : Stored δ) :
    (s.begin.put r).commit s = .ok ({ s.begin.put r with phase := .committed }, s.keep r) := by
  have hactive : (s.begin.put r).isActive = true := by cases r <;> rfl
  have hwritten : (s.begin.put r).written = [r.key] := written_put s.begin r
  have hkeep : s.publishAll (s.begin.put r).working (s.begin.put r).written = s.keep r := by
    rw [hwritten]
    rfl
  rw [← hkeep]
  exact commit_ok hactive fun k _ => (commits_put s.begin r k).symm

namespace Transaction

variable {s : State δ} {now : UInt64}

theorem insertFlow_begin {r : FlowRecord δ} (hgiven : r.id ≠ "")
    (habsent : s.begin.getFlow r.id = none) :
    s.begin.insertFlow r now = .ok (s.begin.put ((Write.insertFlow r).stored s.begin now)) := by
  unfold insertFlow
  rw [if_neg (by simp [isActive, State.begin]), if_neg hgiven, if_neg (by simp [habsent])]
  rfl

theorem insertFlow_taken {r old : FlowRecord δ} (hgiven : r.id ≠ "")
    (hthere : s.begin.getFlow r.id = some old) :
    s.begin.insertFlow r now = .error (.flowExists r.id) := by
  unfold insertFlow
  rw [if_neg (by simp [isActive, State.begin]), if_neg hgiven, if_pos (by simp [hthere])]

theorem updateFlow_begin {r old : FlowRecord δ} (hthere : s.begin.getFlow r.id = some old)
    (hnext : r.version = old.version + 1) :
    s.begin.updateFlow r now =
      .ok (s.begin.put (.flow { r with createdAt := old.createdAt, updatedAt := now })) := by
  unfold updateFlow
  rw [if_neg (by simp [isActive, State.begin])]
  simp only [hthere]
  rw [if_neg (by simp [hnext])]
  rfl

theorem insertRun_begin {r : RunRecord δ} (hgiven : r.run.id ≠ "")
    (habsent : s.begin.getRun r.run.id = none) :
    s.begin.insertRun r now = .ok (s.begin.put (.run { r with updatedAt := now })) := by
  unfold insertRun
  rw [if_neg (by simp [isActive, State.begin]), if_neg hgiven, if_neg (by simp [habsent])]
  rfl

theorem insertRun_nameless {r : RunRecord δ} (h : r.run.id = "") :
    s.begin.insertRun r now = .error .noRunId := by
  unfold insertRun
  rw [if_neg (by simp [isActive, State.begin]), if_pos h]

theorem insertRun_taken {r old : RunRecord δ} (hgiven : r.run.id ≠ "")
    (hthere : s.begin.getRun r.run.id = some old) :
    s.begin.insertRun r now = .error (.runExists r.run.id) := by
  unfold insertRun
  rw [if_neg (by simp [isActive, State.begin]), if_neg hgiven, if_pos (by simp [hthere])]

theorem updateRun_begin {r old : RunRecord δ} (hthere : s.begin.getRun r.run.id = some old) :
    s.begin.updateRun r now = .ok (s.begin.put (.run { r with updatedAt := now })) := by
  unfold updateRun
  rw [if_neg (by simp [isActive, State.begin]), if_neg (by simp [hthere])]
  rfl

end Transaction

end Store

namespace Server

inductive Request where
  | createFlow (f : Flow)
  | getFlow (id : String)
  | editFlow (id : String) (edits : List Edit)
  | checkFlow (id : String)
  | startRun (flowId name : String) (kickoff : Record)
  | getRun (id : String)
  | completeStep (id execution : String) (result : Record) (flags : Flags)
  | submitAssignment (id execution assignment : String) (result : Record)
  | recordEscalation (id execution : String)
  | markStepFailed (id execution reason : String)

inductive Response where
  | flow (f : StoredFlow)
  | edited (r : EditedFlow)
  | findings (fs : List Finding)
  | run (r : Run)
  | started (r : Run) (a : Advance)
  | moved (r : Run) (a : Answer)
  | settled (done : Bool)

/-- A request that fails leaves the state as it was. -/
def outcome {α : Type} (state : State) (answer : α → Response) :
    Except Error (State × α) → State × Except Error Response
  | .ok (after, a) => (after, .ok (answer a))
  | .error e => (state, .error e)

def serve (server : Server) (state : State) (now : Instant) :
    Request → State × Except Error Response
  | .createFlow f => outcome state .flow (createFlow state now f server.printable)
  | .getFlow id => (state, (getFlow state id).map .flow)
  | .editFlow id edits => outcome state .edited (editFlow state now id edits server.printable)
  | .checkFlow id => (state, (checkFlow server state id).map .findings)
  | .startRun flowId name kickoff =>
    outcome state (fun (r, a) => .started r a) (startRun server state now flowId name kickoff)
  | .getRun id => (state, (getRun state id).map .run)
  | .completeStep id execution result flags =>
    outcome state (fun (r, a) => .moved r a)
      (completeStep server state now id execution result flags)
  | .submitAssignment id execution assignment result =>
    outcome state (fun (r, a) => .moved r a)
      (submitAssignment server state now id execution assignment result)
  | .recordEscalation id execution =>
    outcome state .settled (recordEscalation state now id execution)
  | .markStepFailed id execution reason =>
    outcome state .settled (markStepFailed state now id execution reason)

abbrev History := List (Instant × Request)

def after (server : Server) (state : State) (history : History) : State :=
  history.foldl (fun state q => (server.serve state q.1 q.2).1) state

/-- The requests of a history, each with its answer. -/
def transcript (server : Server) : State → History → List (Request × Except Error Response)
  | _, [] => []
  | state, (now, q) :: rest =>
    (q, (server.serve state now q).2) :: server.transcript (server.serve state now q).1 rest

namespace State

variable (state : State)

def flow? (id : String) : Option (Store.FlowRecord Document.Flow) :=
  state.store.begin.getFlow id

def run? (id : String) : Option (Store.RunRecord Document.Flow) :=
  state.store.begin.getRun id

def keep (r : Store.Stored Document.Flow) : State :=
  { state with store := state.store.keep r }

theorem commit_put (purpose : Purpose) (r : Store.Stored Document.Flow) :
    state.commit purpose (state.store.begin.put r) = .ok (state.keep r) := by
  rw [commit, Store.Transaction.commit_put]
  rfl

theorem map_flow? (id : String) : (state.flow? id).map .flow = state.store.stored? (.flow id) :=
  (Store.Transaction.stored?_flow state.store.begin id).symm

theorem map_run? (id : String) : (state.run? id).map .run = state.store.stored? (.run id) :=
  (Store.Transaction.stored?_run state.store.begin id).symm

theorem stored?_keep (r : Store.Stored Document.Flow) (k : Store.Key) :
    (state.keep r).store.stored? k = if k = r.key then some r else state.store.stored? k :=
  state.store.stored?_keep r k

theorem flow?_keep_flow (r : Store.FlowRecord Document.Flow) (id : String) :
    (state.keep (.flow r)).flow? id = if id = r.id then some r else state.flow? id := by
  apply Option.map_injective fun _ _ h => Store.Stored.flow.inj h
  rw [map_flow?, stored?_keep, ← map_flow?]
  by_cases h : id = r.id <;> simp [Store.Stored.key, h]

@[simp] theorem flow?_keep_run (r : Store.RunRecord Document.Flow) (id : String) :
    (state.keep (.run r)).flow? id = state.flow? id := by
  apply Option.map_injective fun _ _ h => Store.Stored.flow.inj h
  rw [map_flow?, stored?_keep, ← map_flow?]
  simp [Store.Stored.key]

theorem run?_keep_run (r : Store.RunRecord Document.Flow) (id : String) :
    (state.keep (.run r)).run? id = if id = r.run.id then some r else state.run? id := by
  apply Option.map_injective fun _ _ h => Store.Stored.run.inj h
  rw [map_run?, stored?_keep, ← map_run?]
  by_cases h : id = r.run.id <;> simp [Store.Stored.key, h]

@[simp] theorem run?_keep_flow (r : Store.FlowRecord Document.Flow) (id : String) :
    (state.keep (.flow r)).run? id = state.run? id := by
  apply Option.map_injective fun _ _ h => Store.Stored.run.inj h
  rw [map_run?, stored?_keep, ← map_run?]
  simp [Store.Stored.key]

/-- Every record is kept under the identifier that it names. -/
structure Keyed : Prop where
  flow : ∀ {id r}, state.flow? id = some r → r.id = id
  run : ∀ {id r}, state.run? id = some r → r.run.id = id

variable {state}

/-- Records stay under their own keys. -/
theorem Keyed.keep (h : state.Keyed) (r : Store.Stored Document.Flow) : (state.keep r).Keyed := by
  cases r with
  | flow r =>
    refine ⟨fun {id s} hs => ?_, fun {id s} hs => h.run (by simpa using hs)⟩
    rw [flow?_keep_flow] at hs
    split at hs
    · rename_i hid
      rw [hid, ← Option.some.inj hs]
    · exact h.flow hs
  | run r =>
    refine ⟨fun {id s} hs => h.flow (by simpa using hs), fun {id s} hs => ?_⟩
    rw [run?_keep_run] at hs
    split at hs
    · rename_i hid
      rw [hid, ← Option.some.inj hs]
    · exact h.run hs

end State

section Calls

variable {server : Server} {state : State} {now : Instant}

@[simp] theorem ok_bind {α β : Type} (a : α) (f : α → Except Error β) :
    (.ok a >>= f) = f a :=
  rfl

@[simp] theorem error_bind {α β : Type} (e : Error) (f : α → Except Error β) :
    (.error e >>= f) = .error e :=
  rfl

@[simp] theorem stored_ok {α : Type} (purpose : Purpose) (a : α) :
    stored purpose (.ok a) = .ok a :=
  rfl

def editedRecord (r : Store.FlowRecord Document.Flow) (f : Flow) (now : Instant) :
    Store.FlowRecord Document.Flow :=
  { r with version := r.version + 1, document := f.toDocument, updatedAt := now.unixMillis }

/-- What creating a flow comes to. -/
theorem createFlow_eq (f : Flow) (printable : Document.Flow → Bool) :
    createFlow state now f printable =
      if f.id = "" then .error .noFlowId
      else
        match f.duplicateId? with
        | some id => .error (.repeatedStepId id)
        | none =>
          if printable f.toDocument = false then .error (.document (.unprintable "flow"))
          else
            match state.flow? f.id with
            | some _ => .error (.store .createFlow (.flowExists f.id))
            | none => .ok (state.keep ((Store.Write.insertFlow
                { id := f.id, document := f.toDocument }).stored state.store.begin now.unixMillis),
                ⟨f, 1⟩) := by
  unfold createFlow
  by_cases hgiven : f.id = ""
  · simp only [if_pos hgiven]
    rfl
  · simp only [if_neg hgiven]
    cases hrepeated : f.duplicateId? with
    | some id => rfl
    | none =>
      by_cases hprintable : printable f.toDocument = false
      · simp only [if_pos hprintable]
        rfl
      · simp only [if_neg hprintable]
        cases hflow : state.flow? f.id with
        | some r =>
          simp only [Store.Transaction.insertFlow_taken
            (r := { id := f.id, document := f.toDocument })
            hgiven hflow]
          rfl
        | none =>
          simp only [Store.Transaction.insertFlow_begin
            (r := { id := f.id, document := f.toDocument })
            hgiven hflow, stored_ok, ok_bind, state.commit_put]
          rfl

theorem getFlow_eq (id : String) :
    getFlow state id =
      match state.flow? id with
      | none => .error (.flowMissing .getFlow id)
      | some r => (decoded r.document).map fun f => ⟨f, r.version⟩ := by
  unfold getFlow flowOf
  change (match state.flow? id with
    | some r => Except.ok r
    | none => _) >>= _ = _
  cases state.flow? id with
  | none => rfl
  | some r => rfl

/-- A batch is applied to the flow that the stored document stands for. -/
theorem editFlow_eq (keyed : state.Keyed) (id : String) (edits : List Edit)
    (printable : Document.Flow → Bool) :
    editFlow state now id edits printable =
      match state.flow? id with
      | none => .error (.flowMissing .editFlow id)
      | some r =>
        decoded r.document >>= fun f =>
          match (f.applyAll edits).flow with
          | none => .ok (state, ⟨f.applyAll edits, r.version⟩)
          | some g =>
            if printable g.toDocument = false then .error (.document (.unprintable "flow"))
            else
              .ok (state.keep (.flow (editedRecord r g now)),
                ⟨f.applyAll edits, r.version + 1⟩) := by
  unfold editFlow flowOf
  change (match state.flow? id with
    | some r => Except.ok r
    | none => _) >>= _ = _
  cases hflow : state.flow? id with
  | none => rfl
  | some r =>
    have hid : r.id = id := keyed.flow hflow
    subst hid
    simp only [ok_bind]
    cases decoded r.document with
    | error refusal => rfl
    | ok f =>
      simp only [ok_bind]
      cases (f.applyAll edits).flow with
      | none => rfl
      | some g =>
        dsimp only
        split
        · rfl
        · rw [Store.Transaction.updateFlow_begin
            (r := { r with version := r.version + 1, document := g.toDocument }) hflow rfl]
          simp only [stored_ok, ok_bind, state.commit_put]
          rfl

def freshRun (server : Server) (state : State) (f : Flow) (name : String) (kickoff : Record) :
    Session :=
  { run :=
      { id := server.engine.newId "run" state.log.drawn
        name := if name = "" then f.name else name
        kickoff := kickoff }
    log := { state.log with drawn := state.log.drawn + 1 } }

def State.moved (state : State) (s : Session) (r : Store.RunRecord Document.Flow) (now : Instant) :
    State :=
  ({ state with log := s.log } : State).keep
    (.run { r with run := s.run, updatedAt := now.unixMillis })

/-- What starting a run comes to. -/
theorem startRun_eq (flowId name : String) (kickoff : Record) :
    startRun server state now flowId name kickoff =
      match state.flow? flowId with
      | none => .error (.flowMissing .startRun flowId)
      | some r =>
        decoded r.document >>= fun f =>
          let (s, advance) := server.engine.start f now {} (server.freshRun state f name kickoff)
          if s.run.id = "" then .error (.store .startRun .noRunId)
          else
            match state.run? s.run.id with
            | some _ => .error (.store .startRun (.runExists s.run.id))
            | none =>
              .ok (state.moved s
                { run := s.run, flowVersion := r.version, document := r.document } now,
                s.run, advance) := by
  unfold startRun flowOf
  change (match state.flow? flowId with
    | some r => Except.ok r
    | none => _) >>= _ = _
  cases hflow : state.flow? flowId with
  | none => rfl
  | some r =>
    simp only [ok_bind]
    cases decoded r.document with
    | error refusal => rfl
    | ok f =>
      simp only [ok_bind]
      unfold freshRun
      generalize server.engine.start f now {} _ = started
      obtain ⟨s, advance⟩ := started
      dsimp only
      by_cases hgiven : s.run.id = ""
      · rw [if_pos hgiven, Store.Transaction.insertRun_nameless (by exact hgiven)]
        rfl
      · rw [if_neg hgiven]
        cases hrun : state.run? s.run.id with
        | some old =>
          rw [Store.Transaction.insertRun_taken (by exact hgiven) (by exact hrun)]
          rfl
        | none =>
          rw [Store.Transaction.insertRun_begin (by exact hgiven) (by exact hrun)]
          exact congrArg (· >>= fun after => .ok (after, s.run, advance))
            (({ state with log := s.log } : State).commit_put .startRun _)

theorem getRun_eq (id : String) :
    getRun state id =
      match state.run? id with
      | none => .error (.runMissing .getRun id)
      | some r => .ok r.run := by
  unfold getRun runOf
  change (match state.run? id with
    | some r => Except.ok r
    | none => _) >>= _ = _
  cases state.run? id <;> rfl

/-- What moving a run comes to. -/
theorem moveRun_eq (keyed : state.Keyed) (purpose : Purpose) (id : String) (move : Move) :
    moveRun server state now purpose id move =
      match state.run? id with
      | none => .error (.runMissing purpose id)
      | some r =>
        decoded r.document >>= fun f =>
          let (s, answer) := server.engine.play f now ⟨r.run, state.log⟩ move
          .ok (state.moved s r now, s.run, answer) := by
  unfold moveRun runOf
  change (match state.run? id with
    | some r => Except.ok r
    | none => _) >>= _ = _
  cases hrun : state.run? id with
  | none => rfl
  | some r =>
    simp only [ok_bind]
    cases decoded r.document with
    | error refusal => rfl
    | ok f =>
      simp only [ok_bind]
      have hid : (server.engine.play f now ⟨r.run, state.log⟩ move).1.run.id = id :=
        (server.engine.ensues_play f now ⟨r.run, state.log⟩ move).id.trans (keyed.run hrun)
      revert hid
      generalize server.engine.play f now ⟨r.run, state.log⟩ move = moved
      obtain ⟨s, answer⟩ := moved
      rintro rfl
      rw [Store.Transaction.updateRun_begin (by exact hrun)]
      exact congrArg (· >>= fun after => .ok (after, s.run, answer))
        (({ state with log := s.log } : State).commit_put purpose _)

/-- What a call leaves that may not have anything to store. -/
theorem settle_eq {id : String} {r : Store.RunRecord Document.Flow} (hrun : state.run? id = some r)
    {outcome : Session × Bool} (hid : outcome.1.run.id = id) (purpose : Purpose) :
    settle state now purpose state.store.begin r outcome =
      .ok (if outcome.2 then state.moved outcome.1 r now else state, outcome.2) := by
  obtain ⟨s, done⟩ := outcome
  cases done with
  | false => rfl
  | true =>
    subst hid
    unfold settle
    rw [if_pos rfl, if_pos rfl, Store.Transaction.updateRun_begin (by exact hrun)]
    exact congrArg (· >>= fun after => .ok (after, true))
      (({ state with log := s.log } : State).commit_put purpose _)

/-- What becomes of a stored run by a change, which is stored if it did something. -/
def State.noted (state : State) (now : Instant) (purpose : Purpose) (id : String)
    (change : Session → Session × Bool) : Except Error (State × Bool) :=
  match state.run? id with
  | none => .error (.runMissing purpose id)
  | some r =>
    let (s, done) := change ⟨r.run, state.log⟩
    .ok (if done then state.moved s r now else state, done)

theorem recordEscalation_eq (keyed : state.Keyed) (id execution : String) :
    recordEscalation state now id execution =
      state.noted now .recordEscalation id (·.escalate execution now) := by
  unfold recordEscalation runOf State.noted
  change (match state.run? id with
    | some r => Except.ok r
    | none => _) >>= _ = _
  cases hrun : state.run? id with
  | none => rfl
  | some r =>
    have hensues := Session.ensues_escalate ⟨r.run, state.log⟩ execution now
    exact settle_eq hrun (hensues.id.trans (keyed.run hrun)) .recordEscalation

theorem markStepFailed_eq (keyed : state.Keyed) (id execution reason : String) :
    markStepFailed state now id execution reason =
      state.noted now .markStepFailed id (·.fail execution reason now) := by
  unfold markStepFailed runOf State.noted
  change (match state.run? id with
    | some r => Except.ok r
    | none => _) >>= _ = _
  cases hrun : state.run? id with
  | none => rfl
  | some r =>
    have hensues := Session.ensues_fail ⟨r.run, state.log⟩ execution reason now
    exact settle_eq hrun (hensues.id.trans (keyed.run hrun)) .markStepFailed

end Calls

namespace Request

/-- Whether a request is about flows and not about runs. -/
def isOnFlows : Request → Bool
  | .createFlow _ | .getFlow _ | .editFlow _ _ | .checkFlow _ => true
  | _ => false

def run? : Request → Option String
  | .getRun id | .completeStep id _ _ _ | .submitAssignment id _ _ _ | .recordEscalation id _
  | .markStepFailed id _ _ => some id
  | _ => none

theorem cases_kind (q : Request) :
    q.isOnFlows = true ∨ (∃ id, q.run? = some id) ∨
      ∃ flowId name kickoff, q = .startRun flowId name kickoff := by
  cases q <;> simp [isOnFlows, run?]

end Request

section Frames

variable (server : Server) {state : State} (now : Instant)

/-- A request about flows replaces the record of a flow, or nothing. -/
theorem serve_flows (keyed : state.Keyed) {q : Request} (h : q.isOnFlows = true) :
    (server.serve state now q).1 = state ∨
      ∃ r, (server.serve state now q).1 = state.keep (.flow r) := by
  cases q with
  | createFlow f =>
    simp only [serve]
    rw [createFlow_eq]
    split
    · exact .inl rfl
    · split
      · exact .inl rfl
      · split
        · exact .inl rfl
        · split
          · exact .inl rfl
          · exact .inr ⟨_, rfl⟩
  | editFlow id edits =>
    simp only [serve]
    rw [editFlow_eq keyed]
    split
    · exact .inl rfl
    · rename_i r _
      cases decoded r.document with
      | error refusal => exact .inl rfl
      | ok f =>
        rw [ok_bind]
        split
        · exact .inl rfl
        · split
          · exact .inl rfl
          · exact .inr ⟨_, rfl⟩
  | getFlow id => exact .inl rfl
  | checkFlow id => exact .inl rfl
  | startRun flowId name kickoff => cases h
  | getRun id => cases h
  | completeStep id execution result flags => cases h
  | submitAssignment id execution assignment result => cases h
  | recordEscalation id execution => cases h
  | markStepFailed id execution reason => cases h

/-- After a call, at most the record of one run is another, and no counter is set back. -/
def State.Replaces (state after : State) (id : String) (now : Instant) : Prop :=
  after = state ∨
    ∃ s r, after = state.moved s r now ∧ s.run.id = id ∧
      state.log.drawn ≤ s.log.drawn ∧ state.log.reviews ≤ s.log.reviews

/-- A start that goes through stores a run under an identifier drawn for it. -/
theorem serve_start (state : State) (flowId name : String) (kickoff : Record) :
    state.Replaces (server.serve state now (.startRun flowId name kickoff)).1
      (server.engine.newId "run" state.log.drawn) now := by
  simp only [serve]
  rw [startRun_eq]
  split
  · exact .inl rfl
  · rename_i r _
    cases decoded r.document with
    | error refusal => exact .inl rfl
    | ok f =>
      have hensues := server.engine.ensues_start f now (server.freshRun state f name kickoff) {}
      rw [ok_bind]
      dsimp only
      split
      · exact .inl rfl
      · split
        · exact .inl rfl
        · exact .inr ⟨_, _, rfl, hensues.id, Nat.le_of_lt hensues.drawn, hensues.reviews⟩

theorem replaces_moveRun (keyed : state.Keyed) (purpose : Purpose) (id : String) (move : Move) :
    state.Replaces (outcome state (fun (r, a) => .moved r a)
      (moveRun server state now purpose id move)).1 id now := by
  rw [moveRun_eq keyed]
  split
  · exact .inl rfl
  · rename_i r hr
    cases decoded r.document with
    | error refusal => exact .inl rfl
    | ok f =>
      have hensues := server.engine.ensues_play f now ⟨r.run, state.log⟩ move
      exact .inr ⟨_, _, rfl, hensues.id.trans (keyed.run hr), hensues.drawn, hensues.reviews⟩

theorem State.replaces_noted (keyed : state.Keyed) (purpose : Purpose) (id : String)
    {change : Session → Session × Bool} (hchange : ∀ t : Session, t.Ensues (change t).1) :
    state.Replaces (outcome state .settled (state.noted now purpose id change)).1 id now := by
  unfold State.noted
  split
  · exact .inl rfl
  · rename_i r hr
    have hensues := hchange ⟨r.run, state.log⟩
    dsimp only [outcome]
    split
    · exact .inr ⟨_, r, rfl, hensues.id.trans (keyed.run hr), hensues.drawn, hensues.reviews⟩
    · exact .inl rfl

/-- A request that names a run replaces the record of that run, or nothing. -/
theorem serve_run (keyed : state.Keyed) {q : Request} {id : String} (h : q.run? = some id) :
    state.Replaces (server.serve state now q).1 id now := by
  cases q with
  | completeStep id' execution result flags =>
    cases h
    exact server.replaces_moveRun now keyed _ _ _
  | submitAssignment id' execution assignment result =>
    cases h
    exact server.replaces_moveRun now keyed _ _ _
  | recordEscalation id' execution =>
    cases h
    simp only [serve]
    rw [recordEscalation_eq keyed]
    exact State.replaces_noted now keyed _ _ fun t => t.ensues_escalate execution now
  | markStepFailed id' execution reason =>
    cases h
    simp only [serve]
    rw [markStepFailed_eq keyed]
    exact State.replaces_noted now keyed _ _ fun t => t.ensues_fail execution reason now
  | getRun id' => exact .inl rfl
  | createFlow f => cases h
  | getFlow id => cases h
  | editFlow id edits => cases h
  | checkFlow id => cases h
  | startRun flowId name kickoff => cases h

theorem State.flow?_moved (s : Session) (r : Store.RunRecord Document.Flow) (id : String) :
    (state.moved s r now).flow? id = state.flow? id :=
  ({ state with log := s.log } : State).flow?_keep_run _ id

theorem State.run?_moved (s : Session) (r : Store.RunRecord Document.Flow) (id : String) :
    (state.moved s r now).run? id =
      if id = s.run.id then some { r with run := s.run, updatedAt := now.unixMillis }
      else state.run? id :=
  ({ state with log := s.log } : State).run?_keep_run _ id

theorem State.Keyed.moved (keyed : state.Keyed) (s : Session) (r : Store.RunRecord Document.Flow) :
    (state.moved s r now).Keyed :=
  have hlog : State.Keyed { state with log := s.log } := ⟨keyed.flow, keyed.run⟩
  hlog.keep _

theorem State.keyed_initial : ({} : State).Keyed where
  flow h := by cases h
  run h := by cases h

/-- All that a request does to the state: it replaces the record of a flow, or that of the run that
it names or starts, or nothing. -/
theorem serve_cases (keyed : state.Keyed) (q : Request) :
    (server.serve state now q).1 = state ∨
      (∃ r, q.isOnFlows = true ∧ (server.serve state now q).1 = state.keep (.flow r)) ∨
      ∃ s r, (server.serve state now q).1 = state.moved s r now ∧
        state.log.drawn ≤ s.log.drawn ∧ state.log.reviews ≤ s.log.reviews ∧
        (q.run? = some s.run.id ∨ s.run.id = server.engine.newId "run" state.log.drawn) := by
  rcases q.cases_kind with hflows | ⟨run, hrun⟩ | ⟨flowId, name, kickoff, rfl⟩
  · rcases server.serve_flows now keyed hflows with hsame | ⟨r, hkeep⟩
    · exact .inl hsame
    · exact .inr (.inl ⟨r, hflows, hkeep⟩)
  · rcases server.serve_run now keyed hrun with hsame | ⟨s, r, hmoved, hid, hdrawn, hreviews⟩
    · exact .inl hsame
    · exact .inr (.inr ⟨s, r, hmoved, hdrawn, hreviews, .inl (hid ▸ hrun)⟩)
  · rcases server.serve_start now state flowId name kickoff with
      hsame | ⟨s, r, hmoved, hid, hdrawn, hreviews⟩
    · exact .inl hsame
    · exact .inr (.inr ⟨s, r, hmoved, hdrawn, hreviews, .inr hid⟩)

/-- No request about runs changes a flow. -/
theorem flow?_serve (keyed : state.Keyed) {q : Request} (h : q.isOnFlows = false) (id : String) :
    (server.serve state now q).1.flow? id = state.flow? id := by
  rcases server.serve_cases now keyed q with hsame | ⟨r, hflows, _⟩ | ⟨s, r, hmoved, _⟩
  · rw [hsame]
  · simp [h] at hflows
  · rw [hmoved, State.flow?_moved]

theorem keyed_serve (keyed : state.Keyed) (q : Request) : (server.serve state now q).1.Keyed := by
  rcases server.serve_cases now keyed q with hsame | ⟨r, _, hkeep⟩ | ⟨s, r, hmoved, _⟩
  · rwa [hsame]
  · rw [hkeep]
    exact keyed.keep _
  · rw [hmoved]
    exact keyed.moved now s r

/-- No request sets a counter back. -/
theorem log_serve (keyed : state.Keyed) (q : Request) :
    state.log.drawn ≤ (server.serve state now q).1.log.drawn ∧
      state.log.reviews ≤ (server.serve state now q).1.log.reviews := by
  rcases server.serve_cases now keyed q with
    hsame | ⟨r, _, hkeep⟩ | ⟨s, r, hmoved, hdrawn, hreviews, _⟩
  · rw [hsame]
    exact ⟨Nat.le_refl _, Nat.le_refl _⟩
  · rw [hkeep]
    exact ⟨Nat.le_refl _, Nat.le_refl _⟩
  · rw [hmoved]
    exact ⟨hdrawn, hreviews⟩

end Frames

end Server

end Workflow
