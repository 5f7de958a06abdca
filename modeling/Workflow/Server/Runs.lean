import Workflow.Server

namespace Workflow.Server

/-- Starts a run of a stored flow. Without a name it takes that of the flow. -/
def startRun (server : Server) (state : State) (now : Instant) (flowId name : String)
    (kickoff : Record) : Except Error (State × Run × Advance) := do
  let t := state.store.begin
  let record ← flowOf t .startRun flowId
  let flow ← decoded record.document
  let fresh : Run :=
    { id := server.engine.newId "run" state.log.drawn
      name := if name = "" then flow.name else name
      kickoff := kickoff }
  let session : Session := { run := fresh, log := { state.log with drawn := state.log.drawn + 1 } }
  let (session, advance) := server.engine.start flow now {} session
  let t ← stored .startRun (t.insertRun
    { run := session.run, flowVersion := record.version, document := record.document }
    now.unixMillis)
  let state ← { state with log := session.log }.commit .startRun t
  return (state, session.run, advance)

def getRun (state : State) (id : String) : Except Error Run := do
  let record ← runOf state.store.begin .getRun id
  return record.run

/-- Makes a move in a stored run, and stores what became of it. -/
def moveRun (server : Server) (state : State) (now : Instant) (purpose : Purpose) (id : String)
    (move : Move) : Except Error (State × Run × Answer) := do
  let t := state.store.begin
  let record ← runOf t purpose id
  let flow ← decoded record.document
  let (session, answer) := server.engine.play flow now ⟨record.run, state.log⟩ move
  let t ← stored purpose (t.updateRun { record with run := session.run } now.unixMillis)
  let state ← { state with log := session.log }.commit purpose t
  return (state, session.run, answer)

def completeStep (server : Server) (state : State) (now : Instant) (id execution : String)
    (result : Record) (flags : Flags) : Except Error (State × Run × Answer) :=
  server.moveRun state now .completeStep id (.complete execution result flags)

def submitAssignment (server : Server) (state : State) (now : Instant)
    (id execution assignment : String) (result : Record) : Except Error (State × Run × Answer) :=
  server.moveRun state now .submitAssignment id (.submit execution assignment result {})

def settle (state : State) (now : Instant) (purpose : Purpose) (t : Transaction)
    (record : Store.RunRecord Document.Flow) (outcome : Session × Bool) :
    Except Error (State × Bool) := do
  if outcome.2 then
    let t ← stored purpose (t.updateRun { record with run := outcome.1.run } now.unixMillis)
    let state ← { state with log := outcome.1.log }.commit purpose t
    return (state, true)
  else return (state, false)

def recordEscalation (state : State) (now : Instant) (id execution : String) :
    Except Error (State × Bool) := do
  let t := state.store.begin
  let record ← runOf t .recordEscalation id
  let session : Session := ⟨record.run, state.log⟩
  settle state now .recordEscalation t record (session.escalate execution now)

def markStepFailed (state : State) (now : Instant) (id execution reason : String) :
    Except Error (State × Bool) := do
  let t := state.store.begin
  let record ← runOf t .markStepFailed id
  let session : Session := ⟨record.run, state.log⟩
  settle state now .markStepFailed t record (session.fail execution reason now)

end Workflow.Server
