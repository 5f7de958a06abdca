import Workflow.Decimal

namespace Workflow

/-- Structured text, with numbers in decimal and fields in the order of the text. -/
inductive Json where
  | null
  | bool (value : Bool)
  | number (value : Decimal)
  | text (value : String)
  | array (items : List Json)
  | object (fields : List (String × Json))

namespace Json

def int (i : Int) : Json :=
  .number (.ofInt i)

def nat (n : Nat) : Json :=
  .number (.ofInt n)

def isNull : Json → Bool
  | .null => true
  | _ => false

def field? (name : String) : Json → Option Json
  | .object fields => fields.lookup name
  | _ => none

end Json

end Workflow
