import Workflow.Run
import Workflow.Table

/-!
A store of flows and runs with transactions. A transaction works on a copy of what was committed
when it began. A commit publishes only the records that the transaction wrote, and is refused if
another transaction committed one of them in the meantime. Documents are of any type `δ`.
-/

namespace Workflow.Store

structure FlowRecord (δ : Type) where
  id : String
  /-- Goes up by one with every update. -/
  version : UInt64 := 1
  document : δ
  /-- Milliseconds since 1970, like all times here. -/
  createdAt : UInt64 := 0
  updatedAt : UInt64 := 0
  deriving Repr, DecidableEq

/-- A run, with the document that it was started on. -/
structure RunRecord (δ : Type) where
  run : Run
  flowVersion : UInt64 := 0
  document : δ
  updatedAt : UInt64 := 0

/-- A record, and a count of its commits, which is a word and wraps. -/
structure Entry (α : Type) where
  value : α
  commits : UInt64 := 0

structure State (δ : Type) where
  flows : Table (Entry (FlowRecord δ)) := []
  runs : Table (Entry (RunRecord δ)) := []

inductive Key where
  | flow (id : String)
  | run (id : String)
  deriving DecidableEq, Repr

def Key.label : Key → String
  | .flow id => "flow/" ++ id
  | .run id => "run/" ++ id

inductive Code where
  | notFound | alreadyExists | conflict | internalError
  deriving DecidableEq, Repr

def Code.name : Code → String
  | .notFound => "NotFound"
  | .alreadyExists => "AlreadyExists"
  | .conflict => "Conflict"
  | .internalError => "InternalError"

inductive Error where
  | noFlowId
  | noRunId
  | flowExists (id : String)
  | runExists (id : String)
  | flowMissing (id : String)
  | runMissing (id : String)
  | staleVersion (id : String) (current : UInt64)
  /-- Something is written in a transaction that is over. -/
  | finished
  /-- A transaction is committed after it was rolled back. -/
  | rolledBack
  /-- Another transaction committed the record first. -/
  | overtaken (key : Key)
  deriving DecidableEq, Repr

namespace Error

/-- The code of a refused write. The other errors are those of a transaction. -/
def code? : Error → Option Code
  | .noFlowId | .noRunId => some .internalError
  | .flowExists _ | .runExists _ => some .alreadyExists
  | .flowMissing _ | .runMissing _ => some .notFound
  | .staleVersion _ _ => some .conflict
  | .finished | .rolledBack | .overtaken _ => none

/-- The text of an error. What a transaction is told ends at the first NUL in it. -/
def message : Error → String
  | .noFlowId => "flow id is required"
  | .noRunId => "run id is required"
  | .flowExists id => "flow already exists: " ++ id
  | .runExists id => "run already exists: " ++ id
  | .flowMissing id => "flow not found: " ++ id
  | .runMissing id => "run not found: " ++ id
  | .staleVersion id current => "flow " ++ id ++ " is at version " ++ toString current.toNat
  | .finished => "transaction already finished"
  | .rolledBack => "transaction already rolled back"
  | .overtaken key =>
    Text.untilNul
      ("transaction conflict: " ++ key.label ++ " was modified by a concurrent transaction")

end Error

inductive Phase where
  | active | committed | rolledBack
  deriving DecidableEq, Repr

structure Transaction (δ : Type) where
  working : State δ
  /-- The records written, by label. -/
  written : List Key := []
  phase : Phase := .active

def State.commits {δ : Type} (s : State δ) : Key → UInt64
  | .flow id => ((s.flows.find? id).map Entry.commits).getD 0
  | .run id => ((s.runs.find? id).map Entry.commits).getD 0

def State.begin {δ : Type} (s : State δ) : Transaction δ :=
  { working := s }

/-- The committed state with the record of a key taken from another state. -/
def State.publish {δ : Type} (s working : State δ) : Key → State δ
  | .flow id =>
    match working.flows.find? id with
    | some entry => { s with flows := s.flows.put id ⟨entry.value, s.commits (.flow id) + 1⟩ }
    | none => s
  | .run id =>
    match working.runs.find? id with
    | some entry => { s with runs := s.runs.put id ⟨entry.value, s.commits (.run id) + 1⟩ }
    | none => s

/-- Adds a key to others, which stand in the order of their labels. -/
def insertKey (key : Key) : List Key → List Key
  | [] => [key]
  | k :: rest =>
    if k = key then k :: rest
    else if key.label < k.label then key :: k :: rest
    else k :: insertKey key rest

namespace Transaction

variable {δ : Type}

def isActive (t : Transaction δ) : Bool :=
  t.phase == .active

def isCommitted (t : Transaction δ) : Bool :=
  t.phase == .committed

/-- Puts a flow's record in place, keeping count of its commits. -/
def putFlow (t : Transaction δ) (r : FlowRecord δ) : Transaction δ :=
  { t with
    working.flows := t.working.flows.put r.id ⟨r, t.working.commits (.flow r.id)⟩
    written := insertKey (.flow r.id) t.written }

def putRun (t : Transaction δ) (r : RunRecord δ) : Transaction δ :=
  { t with
    working.runs := t.working.runs.put r.run.id ⟨r, t.working.commits (.run r.run.id)⟩
    written := insertKey (.run r.run.id) t.written }

def getFlow (t : Transaction δ) (id : String) : Option (FlowRecord δ) :=
  (t.working.flows.find? id).map Entry.value

def getRun (t : Transaction δ) (id : String) : Option (RunRecord δ) :=
  (t.working.runs.find? id).map Entry.value

def listFlows (t : Transaction δ) : List (FlowRecord δ) :=
  t.working.flows.map fun (_, entry) => entry.value

def listRuns (t : Transaction δ) (flowId : String) : List (RunRecord δ) :=
  (t.working.runs.map fun (_, entry) => entry.value).filter fun r => r.run.flowId == flowId

/-- Adds a flow. It was created now unless its record says when. -/
def insertFlow (t : Transaction δ) (r : FlowRecord δ) (now : UInt64) :
    Except Error (Transaction δ) :=
  if !t.isActive then .error .finished
  else if r.id = "" then .error .noFlowId
  else if (t.getFlow r.id).isSome then .error (.flowExists r.id)
  else
    let created := if r.createdAt = 0 then now else r.createdAt
    .ok (t.putFlow { r with createdAt := created, updatedAt := created })

def updateFlow (t : Transaction δ) (r : FlowRecord δ) (now : UInt64) :
    Except Error (Transaction δ) :=
  if !t.isActive then .error .finished
  else
    match t.getFlow r.id with
    | none => .error (.flowMissing r.id)
    | some stored =>
      if r.version ≠ stored.version + 1 then .error (.staleVersion r.id stored.version)
      else .ok (t.putFlow { r with createdAt := stored.createdAt, updatedAt := now })

def insertRun (t : Transaction δ) (r : RunRecord δ) (now : UInt64) :
    Except Error (Transaction δ) :=
  if !t.isActive then .error .finished
  else if r.run.id = "" then .error .noRunId
  else if (t.getRun r.run.id).isSome then .error (.runExists r.run.id)
  else .ok (t.putRun { r with updatedAt := now })

def updateRun (t : Transaction δ) (r : RunRecord δ) (now : UInt64) :
    Except Error (Transaction δ) :=
  if !t.isActive then .error .finished
  else if (t.getRun r.run.id).isNone then .error (.runMissing r.run.id)
  else .ok (t.putRun { r with updatedAt := now })

/-- The first written record whose count is not what it was when the transaction began. -/
def overtaken? (t : Transaction δ) (committed : State δ) : Option Key :=
  t.written.find? fun key => committed.commits key != t.working.commits key

/-- Publishes what was written. A second commit does nothing. -/
def commit (t : Transaction δ) (committed : State δ) :
    Except Error (Transaction δ × State δ) :=
  match t.phase with
  | .committed => .ok (t, committed)
  | .rolledBack => .error .rolledBack
  | .active =>
    match t.overtaken? committed with
    | some key => .error (.overtaken key)
    | none =>
      let published := t.written.foldl (fun s key => s.publish t.working key) committed
      .ok ({ t with phase := .committed }, published)

/-- Gives up what was written; what was committed stays. -/
def rollback (t : Transaction δ) : Transaction δ :=
  if t.isCommitted then t else { t with phase := .rolledBack }

end Transaction

end Workflow.Store
