import Workflow.Json.Token

namespace Workflow.Json

/-- An unfinished value: what it holds already, the latest first, and for an object the name whose
value comes next. -/
inductive Unfinished where
  | array (items : List Json)
  | object (fields : List (String × Json)) (name : String)

mutual

def readValue : List Token → List Unfinished → Option Json
  | .word value :: rest, stack => readAfter rest value stack
  | .text value :: rest, stack => readAfter rest (.text value) stack
  | .openArray :: .closeArray :: rest, stack => readAfter rest (.array []) stack
  | .openArray :: rest, stack => readValue rest (.array [] :: stack)
  | .openObject :: .closeObject :: rest, stack => readAfter rest (.object []) stack
  | .openObject :: .text name :: .colon :: rest, stack => readValue rest (.object [] name :: stack)
  | _, _ => none

def readAfter : List Token → Json → List Unfinished → Option Json
  | [], value, [] => some value
  | .comma :: rest, value, .array items :: stack =>
    readValue rest (.array (value :: items) :: stack)
  | .closeArray :: rest, value, .array items :: stack =>
    readAfter rest (.array (value :: items).reverse) stack
  | .comma :: .text next :: .colon :: rest, value, .object fields name :: stack =>
    readValue rest (.object ((name, value) :: fields) next :: stack)
  | .closeObject :: rest, value, .object fields name :: stack =>
    readAfter rest (.object ((name, value) :: fields).reverse) stack
  | _, _, _ => none

end

def read? (text : String) : Option Json :=
  (Token.scan text.toList).bind fun tokens => readValue tokens []

end Workflow.Json
