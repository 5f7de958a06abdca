import Workflow.Binary64
import Workflow.Choice
import Workflow.Json.Token

namespace Workflow.Json

abbrev Setter (σ : Type) :=
  Json → σ → Option σ

def text? : Json → Option String
  | .text s => some s
  | _ => none

def bool? : Json → Option Bool
  | .bool b => some b
  | _ => none

/-- The whole number that digits spell, behind a minus sign or none. -/
def digits? (s : String) : Option Int :=
  let (negative, ds) := match s.toList with
    | '-' :: rest => (true, rest)
    | cs => (false, cs)
  if ds = [] ∨ ds.all Char.isDigit = false then none
  else
    let n := Token.digitsValue ds
    some (if negative then -n else n)

/-- The whole number that a written number stands for. Plain digits count exactly; behind a point
or an exponent the nearest binary number counts. -/
def whole? (d : Decimal) : Option Int :=
  if d.exponent = 0 then d.toInt?
  else (Binary64.decode? (Binary64.ofDecimal d)).bind Binary64.Finite.toInt?

/-- A whole number from `low` to `high`, given as a number or as its digits in quotes. -/
def integer? (low high : Int) (j : Json) : Option Int := do
  let i ← match j with
    | .number d => whole? d
    | .text s => digits? s
    | _ => none
  if low ≤ i ∧ i ≤ high then some i else none

def int32? (j : Json) : Option Int :=
  j.integer? (-2147483648) 2147483647

def uint32? (j : Json) : Option UInt32 :=
  (j.integer? 0 4294967295).map fun i => UInt32.ofNat i.toNat

def int64? (j : Json) : Option Int64 :=
  (j.integer? (-9223372036854775808) 9223372036854775807).map Int64.ofInt

/-- The value of that number in a list that counts from one; zero chooses nothing. -/
def numbered {α : Type} (choices : List (String × α)) (i : Int) : Choice α :=
  if i = 0 then .unset
  else if i < 0 then .unknown
  else match choices[i.toNat - 1]? with
    | some entry => .known entry.2
    | none => .unknown

/-- One of several values, by its name or by a number. The first argument is the name under which
nothing is chosen. -/
def choice? {α : Type} (unspecified : String) (choices : List (String × α)) :
    Json → Option (Choice α)
  | .text s =>
    if s = unspecified then some .unset else (choices.lookup s).map .known
  | .number d => (int32? (.number d)).map (numbered choices)
  | _ => none

def readFields {σ : Type} (setter? : String → Option (Setter σ)) :
    List (String × Json) → σ → Option σ
  | [], value => some value
  | (name, j) :: rest, value => do
    let set ← setter? name
    let value ← if j.isNull then some value else set j value
    readFields setter? rest value

def readObject {σ : Type} (setter? : String → Option (Setter σ)) (start : σ) :
    Json → Option σ
  | .object fields => readFields setter? fields start
  | _ => none

def items? {α : Type} (read : Json → Option α) : Json → Option (List α)
  | .array items => items.mapM read
  | _ => none

def setter {σ α : Type} (read : Json → Option α) (set : σ → α → σ) :
    Option (Setter σ) :=
  some fun j value => (read j).map (set value)

end Workflow.Json
