import Workflow.Data.Shown
import Workflow.Flow
import Workflow.Numeral
import Workflow.Run

/-!
Routing: reading the operands of a condition, deciding it, and choosing the paths of a branch and
the outcome of a decision.

An operand is a literal or a token. `{kickoff.f}` is a field of the data the run started with,
`{result.f}` and `{f}` are fields of the data submitted last, `{step.s.f}` is a field of the result
of a completed step; what a token does not find is empty. On the left side a field of the submitted
data can be named without braces. Where an operand names a whole record, it is the text that `print`
writes for it.
-/

namespace Workflow

structure Situation where
  result : Record
  run : Run

namespace Situation

def tokenWith (print : Record → Option String) (s : Situation) (t : String) : String :=
  let (head, rest) := Text.cut '.' t
  let rest := rest.getD ""
  match head with
  | "kickoff" => s.run.kickoff.showAtWith print rest
  | "result" => s.result.showAtWith print rest
  | "step" =>
    match Text.cut '.' rest with
    | (_, none) => ""
    | (stepId, some path) =>
      match s.run.latest? stepId with
      | some e => if e.status = .completed then e.result.showAtWith print path else ""
      | none => ""
  | _ => s.result.showAtWith print t

def braced? (trimmed : String) : Option String :=
  match trimmed.toList with
  | '\x7b' :: rest =>
    if rest.getLast? = some '\x7d' then some (Text.trim (String.ofList rest.dropLast)) else none
  | _ => none

def operandWith (print : Record → Option String) (s : Situation) (bare : Bool) (text : String) :
    String :=
  let trimmed := Text.trim text
  match braced? trimmed with
  | some t => s.tokenWith print t
  | none =>
    if bare && (s.result.lookup trimmed).isSome then s.result.showAtWith print trimmed else trimmed

def leftWith (print : Record → Option String) (s : Situation) (c : Clause) : String :=
  s.operandWith print true c.left

def rightWith (print : Record → Option String) (s : Situation) (c : Clause) : String :=
  s.operandWith print false c.right

/-- Whether a text is one of the items between the commas of another. -/
def isAmong (item items : String) : Bool :=
  ((Text.split ',' items).map Text.normal).contains (Text.normal item)

/-- Compares two numerals; texts that are none compare as false. -/
def compareNumbers (test : Float → Float → Bool) (a b : String) : Bool :=
  match Numeral.read? a, Numeral.read? b with
  | some x, some y => test x y
  | _, _ => false

def compare (c : Comparison) (left right : String) : Bool :=
  match c with
  | .equals => Text.normal left == Text.normal right
  | .notEquals => Text.normal left != Text.normal right
  | .contains => Text.contains (Text.normal left) (Text.normal right)
  | .notContains => !Text.contains (Text.normal left) (Text.normal right)
  | .greaterThan => compareNumbers (fun x y => decide (y < x)) left right
  | .lessThan => compareNumbers (fun x y => decide (x < y)) left right
  | .isEmpty => Text.trim left == ""
  | .notEmpty => Text.trim left != ""
  | .isIn => isAmong left right
  | .notIn => !isAmong left right
  | .otherwise => true

def clauseWith (print : Record → Option String) (s : Situation) (c : Clause) : Bool :=
  compare c.comparison (s.leftWith print c) (s.rightWith print c)

def operand (s : Situation) (bare : Bool) (text : String) : String :=
  s.operandWith Record.print? bare text

def left (s : Situation) (c : Clause) : String :=
  s.leftWith Record.print? c

def right (s : Situation) (c : Clause) : String :=
  s.rightWith Record.print? c

def clause (s : Situation) (c : Clause) : Bool :=
  s.clauseWith Record.print? c

theorem left_eq (s : Situation) (c : Clause) : s.left c = s.operand true c.left :=
  rfl

theorem right_eq (s : Situation) (c : Clause) : s.right c = s.operand false c.right :=
  rfl

theorem clause_eq (s : Situation) (c : Clause) :
    s.clause c = compare c.comparison (s.left c) (s.right c) :=
  rfl

/-- Decides clauses one after the other, passing over fallback clauses; `decided` tells whether one
was decided already. -/
def clauses (s : Situation) (logic : Logic) (decided : Bool) : List Clause → Bool
  | [] => decided && logic == .all
  | c :: rest =>
    if c.comparison = .otherwise then s.clauses logic decided rest
    else
      match logic, s.clause c with
      | .any, true => true
      | .all, false => false
      | _, _ => s.clauses logic true rest

/-- Whether a guard opens its path. A guard without a clause of its own opens nothing. -/
def opens (s : Situation) (g : Guard) : Bool :=
  s.clauses g.logic false g.clauses

/-- The first path that opens, else the fallback met first. -/
def firstOpen (s : Situation) (fallback : Option (Path Step)) :
    List (Path Step) → Option (Path Step)
  | [] => fallback
  | p :: rest =>
    if p.guard.isOtherwise then s.firstOpen (fallback.or (some p)) rest
    else if s.opens p.guard then some p
    else s.firstOpen fallback rest

/-- The path that a single choice takes: the one the submission names, else the first that opens,
else the fallback. -/
def single (s : Situation) (paths : List (Path Step)) : Option (Path Step) :=
  let selected := s.result.showAt "selectedPathId"
  let named := if selected = "" then none else paths.find? fun p => p.id == selected
  match named with
  | some p => some p
  | none => s.firstOpen none paths

/-- Gathers the paths that open behind those `opened` so far, and remembers the fallback met first;
it counts if nothing opens. -/
def gather (s : Situation) (opened : List (Path Step)) (fallback : Option (Path Step)) :
    List (Path Step) → List (Path Step)
  | [] => if opened.isEmpty then fallback.toList else opened
  | p :: rest =>
    if p.guard.isOtherwise then s.gather opened (fallback.or (some p)) rest
    else if s.opens p.guard then s.gather (opened ++ [p]) fallback rest
    else s.gather opened fallback rest

/-- All paths that open, in order, or the fallback if none does. -/
def several (s : Situation) (paths : List (Path Step)) : List (Path Step) :=
  s.gather [] none paths

/-- The outcome that the submission names, by its id or else by its label. -/
def outcome (s : Situation) (outcomes : List (Outcome Step)) : Option (Outcome Step) :=
  let first := s.operand false "\x7boutcome\x7d"
  let chosen := if first = "" then s.operand false "\x7boutcomeId\x7d" else first
  if chosen = "" then none
  else
    match outcomes.find? fun o => o.id == chosen with
    | some o => some o
    | none => outcomes.find? fun o => o.label != "" && Text.lower o.label == Text.lower chosen

theorem gather_eq (s : Situation) (opened : List (Path Step)) (fallback : Option (Path Step))
    (paths : List (Path Step)) :
    s.gather opened fallback paths =
      let opening := opened ++ paths.filter fun p => !p.guard.isOtherwise && s.opens p.guard
      if opening.isEmpty then (fallback.or (paths.find? fun p => p.guard.isOtherwise)).toList
      else opening := by
  induction paths generalizing opened fallback with
  | nil => simp [gather]
  | cons p rest ih =>
    cases hp : p.guard.isOtherwise with
    | true => cases fallback <;> simp [gather, hp, ih]
    | false => cases ho : s.opens p.guard <;> simp [gather, hp, ho, ih]

theorem several_eq (s : Situation) (paths : List (Path Step)) :
    s.several paths =
      let opening := paths.filter fun p => !p.guard.isOtherwise && s.opens p.guard
      if opening.isEmpty then (paths.find? fun p => p.guard.isOtherwise).toList else opening :=
  s.gather_eq [] none paths

end Situation

end Workflow
