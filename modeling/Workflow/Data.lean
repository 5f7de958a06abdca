import Workflow.Binary64
import Workflow.Table
import Workflow.Text

/-!
Free data: what assignees submit and what steps are configured with. A record is looked into by a
dotted path; a value is compared as text.
-/

namespace Workflow

inductive Value where
  | null
  | bool (value : Bool)
  | number (value : Float)
  | text (value : String)
  | list (items : List Value)
  | record (fields : List (String × Value))

abbrev Record := Table Value

mutual

def Value.isFinite : Value → Bool
  | .null => true
  | .bool _ => true
  | .number x => (Binary64.decode? x).isSome
  | .text _ => true
  | .list items => Value.areFinite items
  | .record fields => Record.isFinite fields

def Value.areFinite : List Value → Bool
  | [] => true
  | v :: rest => v.isFinite && Value.areFinite rest

def Record.isFinite : List (String × Value) → Bool
  | [] => true
  | (_, v) :: rest => v.isFinite && Record.isFinite rest

end

namespace Record

/-- Follows the names of a path, each into the record that the one before holds. -/
def walk : Record → List String → Option Value
  | _, [] => none
  | r, [name] => r.find? name
  | r, name :: next :: rest =>
    match r.find? name with
    | some (.record fields) => walk fields (next :: rest)
    | _ => none

/-- The value at a dotted path; the empty path leads nowhere. -/
def lookup (r : Record) (path : String) : Option Value :=
  if path = "" then none else r.walk (Text.split '.' path)

end Record

end Workflow
