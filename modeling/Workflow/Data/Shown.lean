import Workflow.Data.Written
import Workflow.Json.Printer

namespace Workflow

/-- Significant digits of a number that is not written out as a whole. -/
def shownDigits : Nat :=
  6

def showNumber (x : Float) : String :=
  match wholeNumber? x with
  | some i => (Decimal.ofInt i).toText
  | none => match Binary64.decode? x with
    | some v => (Binary64.rounded shownDigits v).write shownDigits
    | none =>
      if x.toBits = 0x7FF0000000000000 then "inf"
      else if x.toBits = 0xFFF0000000000000 then "-inf"
      else "nan"

/-- Puts an item behind the text so far. A comma parts the two, unless the text is empty: empty
items at the front leave no trace. -/
def joinItem (joined item : String) : String :=
  (if joined = "" then "" else joined ++ ",") ++ item

/-- The structured text of a record, which has none if a number in it is not finite. -/
def Record.print? (r : Record) : Option String :=
  if Record.isFinite r then some (Record.toJson r).print else none

section

variable (print : Record → Option String)

mutual

/-- A value as text, with records as `print` writes them; one that it does not write shows
nothing. -/
def Value.showWith : Value → String
  | .null => ""
  | .bool true => "true"
  | .bool false => "false"
  | .number x => showNumber x
  | .text s => s
  | .list items => Value.showItemsWith "" items
  | .record fields => (print fields).getD ""

def Value.showItemsWith : String → List Value → String
  | joined, [] => joined
  | joined, v :: rest => Value.showItemsWith (joinItem joined v.showWith) rest

end

/-- The text at a path, empty where there is nothing. -/
def Record.showAtWith (r : Record) (path : String) : String :=
  match r.lookup path with
  | some v => v.showWith print
  | none => ""

end

def Value.show (v : Value) : String :=
  v.showWith Record.print?

def Record.showAt (r : Record) (path : String) : String :=
  r.showAtWith Record.print? path

end Workflow
