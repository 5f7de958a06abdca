import Workflow.Data
import Workflow.Json

namespace Workflow

/-- Below this size whole numbers are written out. -/
def wholeLimit : Nat :=
  1000000000000000

/-- The whole number that a number is written as, if it is. -/
def wholeNumber? (x : Float) : Option Int :=
  match (Binary64.decode? x).bind Binary64.Finite.toInt? with
  | some i => if i.natAbs < wholeLimit then some i else none
  | none => none

/-- The decimal a number is written as: exact if it is whole and not written with an exponent, else
with the fewest digits that read back. Data that was read holds finite numbers only. -/
def decimalOf (x : Float) : Decimal :=
  match wholeNumber? x with
  | some i => .ofInt i
  | none => match Binary64.decode? x with
    | none => .ofInt 0
    | some v =>
      let d := Binary64.shortest x v
      match v.toInt? with
      | some i => if d.isPositional then .ofInt i else d
      | none => d

mutual

def Value.toJson : Value → Json
  | .null => .null
  | .bool b => .bool b
  | .number x => .number (decimalOf x)
  | .text s => .text s
  | .list items => .array (Value.listToJson items)
  | .record fields => .object (Value.fieldsToJson fields)

def Value.listToJson : List Value → List Json
  | [] => []
  | v :: rest => v.toJson :: Value.listToJson rest

def Value.fieldsToJson : List (String × Value) → List (String × Json)
  | [] => []
  | (name, v) :: rest => (name, v.toJson) :: Value.fieldsToJson rest

end

def Record.toJson (r : Record) : Json :=
  .object (Value.fieldsToJson r)

mutual

/-- Reads a value; a number beyond the largest floating number is refused. -/
def Value.ofJson? : Json → Option Value
  | .null => some .null
  | .bool b => some (.bool b)
  | .number d =>
    let x := Binary64.ofDecimal d
    if (Binary64.decode? x).isSome then some (.number x) else none
  | .text s => some (.text s)
  | .array items => (Value.listOfJson? items).map .list
  | .object fields => (Value.fieldsOfJson? fields).map fun entries => .record (Table.ofList entries)

def Value.listOfJson? : List Json → Option (List Value)
  | [] => some []
  | j :: rest => do
    let v ← Value.ofJson? j
    let vs ← Value.listOfJson? rest
    some (v :: vs)

def Value.fieldsOfJson? : List (String × Json) → Option (List (String × Value))
  | [] => some []
  | (name, j) :: rest => do
    let v ← Value.ofJson? j
    let vs ← Value.fieldsOfJson? rest
    some ((name, v) :: vs)

end

def Record.ofJson? : Json → Option Record
  | .object fields => (Value.fieldsOfJson? fields).map Table.ofList
  | _ => none

end Workflow
