import Workflow.Document.Decode
import Workflow.Document.Encode
import Workflow.Engine.Move
import Workflow.Findings
import Workflow.Policy.Config
import Workflow.Store

/-!
The server: flows and runs in a store, with an engine that moves the runs. Every call is one
transaction, which is committed when the call succeeds and dropped otherwise.
-/

namespace Workflow

/-- What a server is set up with. Documents that are not printable cannot be stored; what is stored
reads back as the document that was printed. -/
structure Server where
  engine : Engine
  limits : Constraints := {}
  printable : Document.Flow → Bool := Document.Flow.isPrintable

namespace Server

structure State where
  store : Store.State Document.Flow := {}
  log : Log := {}

def configure (c : Config) (advisers : Advisers) (newId : String → Nat → String) :
    Except ConfigError Server := do
  let limits ← c.constraints
  let catalogue ← c.catalogue
  return {
    engine :=
      { policy := c.enginePolicy
        catalogue := catalogue
        advisers := advisers
        newId := newId }
    limits := limits }

inductive Purpose where
  | createFlow | editFlow | getFlow
  | startRun | getRun | completeStep | submitAssignment | recordEscalation | markStepFailed
  deriving DecidableEq, Repr

def Purpose.name : Purpose → String
  | .createFlow => "create flow"
  | .editFlow => "edit flow"
  | .getFlow => "get flow"
  | .startRun => "start run"
  | .getRun => "get run"
  | .completeStep => "complete step"
  | .submitAssignment => "submit assignment"
  | .recordEscalation => "record escalation"
  | .markStepFailed => "mark step failed"

inductive Error where
  | noFlowId
  | repeatedStepId (id : String)
  | flowMissing (purpose : Purpose) (id : String)
  | runMissing (purpose : Purpose) (id : String)
  | document (refusal : Document.Refusal)
  | store (purpose : Purpose) (error : Store.Error)

inductive ErrorKind where
  | notFound | alreadyExists | invalidState | invalidArgument | invalidDocument | misuse | other
  deriving DecidableEq, Repr

def storeErrorKind (e : Store.Error) : ErrorKind :=
  match e with
  | .flowMissing _ | .runMissing _ => .notFound
  | .flowExists _ | .runExists _ => .alreadyExists
  | .staleVersion _ _ => .invalidState
  | .noFlowId | .noRunId | .overtaken _ => .other
  | .finished | .rolledBack => .misuse

namespace Error

def kind : Error → ErrorKind
  | .noFlowId => .invalidArgument
  | .repeatedStepId _ => .invalidDocument
  | .flowMissing _ _ | .runMissing _ _ => .notFound
  | .document _ => .invalidDocument
  | .store _ e => storeErrorKind e

def wording : Error → String
  | .noFlowId => "create flow: flowId is required"
  | .repeatedStepId id => "create flow: duplicate step id: " ++ id
  | .flowMissing purpose id => purpose.name ++ ": flow not found: " ++ id
  | .runMissing purpose id => purpose.name ++ ": run not found: " ++ id
  | .document refusal => refusal.message
  | .store purpose e =>
    match e.code? with
    | some _ => purpose.name ++ ": " ++ e.message
    | none => e.message

/-- The text of an error, which ends at the first NUL in it. -/
def message (e : Error) : String :=
  Text.untilNul e.wording

end Error

abbrev Transaction := Store.Transaction Document.Flow

def stored {α : Type} (purpose : Purpose) (answer : Except Store.Error α) : Except Error α :=
  answer.mapError (.store purpose)

def decoded (document : Document.Flow) : Except Error Flow :=
  (Flow.ofDocument document).mapError .document

def flowOf (t : Transaction) (purpose : Purpose) (id : String) :
    Except Error (Store.FlowRecord Document.Flow) :=
  match t.getFlow id with
  | some r => .ok r
  | none => .error (.flowMissing purpose id)

def runOf (t : Transaction) (purpose : Purpose) (id : String) :
    Except Error (Store.RunRecord Document.Flow) :=
  match t.getRun id with
  | some r => .ok r
  | none => .error (.runMissing purpose id)

def State.commit (state : State) (purpose : Purpose) (t : Transaction) : Except Error State := do
  let (_, store) ← stored purpose (t.commit state.store)
  return { state with store := store }

end Server

end Workflow
