import Workflow.Edit.Apply
import Workflow.Server

namespace Workflow.Server

structure StoredFlow where
  flow : Flow
  version : UInt64

/-- What became of a batch, and the version stored after it. -/
structure EditedFlow where
  result : BatchResult
  version : UInt64

def createFlow (state : State) (now : Instant) (f : Flow)
    (printable : Document.Flow → Bool := Document.Flow.isPrintable) :
    Except Error (State × StoredFlow) := do
  if f.id = "" then .error .noFlowId
  if let some id := f.duplicateId? then .error (.repeatedStepId id)
  if printable f.toDocument = false then .error (.document (.unprintable "flow"))
  let t ← stored .createFlow
    (state.store.begin.insertFlow { id := f.id, document := f.toDocument } now.unixMillis)
  let state ← state.commit .createFlow t
  return (state, ⟨f, 1⟩)

def getFlow (state : State) (id : String) : Except Error StoredFlow := do
  let record ← flowOf state.store.begin .getFlow id
  let flow ← decoded record.document
  return ⟨flow, record.version⟩

/-- Applies a batch of edits. Only a batch without a failure is stored. -/
def editFlow (state : State) (now : Instant) (id : String) (edits : List Edit)
    (printable : Document.Flow → Bool := Document.Flow.isPrintable) :
    Except Error (State × EditedFlow) := do
  let t := state.store.begin
  let record ← flowOf t .editFlow id
  let flow ← decoded record.document
  let result := flow.applyAll edits
  match result.flow with
  | none => return (state, ⟨result, record.version⟩)
  | some edited =>
    if printable edited.toDocument = false then .error (.document (.unprintable "flow"))
    let version := record.version + 1
    let t ← stored .editFlow
      (t.updateFlow { record with version := version, document := edited.toDocument }
        now.unixMillis)
    let state ← state.commit .editFlow t
    return (state, ⟨result, version⟩)

def checkFlow (server : Server) (state : State) (id : String) : Except Error (List Finding) := do
  let found ← getFlow state id
  return found.flow.findings server.limits

end Workflow.Server
