import Workflow.Binary64
import Workflow.Text

namespace Workflow.Numeral

def isDigit (c : Char) : Bool :=
  c.isDigit

def hexValue? (c : Char) : Option Nat :=
  if c.isDigit then some (c.toNat - 48)
  else
    let n := c.toLower.toNat
    if 97 ≤ n ∧ n ≤ 102 then some (n - 87) else none

def decimalValue (ds : List Char) : Nat :=
  ds.foldl (fun n c => 10 * n + (c.toNat - 48)) 0

def hexadecimalValue (ds : List Char) : Nat :=
  ds.foldl (fun n c => 16 * n + (hexValue? c).getD 0) 0

def sign : List Char → Bool × List Char
  | '-' :: rest => (true, rest)
  | '+' :: rest => (false, rest)
  | rest => (false, rest)

/-- The digits before and after an optional point, and the rest. -/
def mantissa (digit : Char → Bool) (cs : List Char) : List Char × List Char × List Char :=
  let whole := cs.takeWhile digit
  match cs.dropWhile digit with
  | '.' :: rest => (whole, rest.takeWhile digit, rest.dropWhile digit)
  | rest => (whole, [], rest)

/-- An exponent behind one of the two marks, filling the rest; nothing is the exponent zero. -/
def exponent? (mark : Char) : List Char → Option Int
  | [] => some 0
  | c :: rest =>
    if c.toLower = mark then
      let (negative, ds) := sign rest
      if ds ≠ [] ∧ ds.all isDigit then
        let n : Int := decimalValue ds
        some (if negative then -n else n)
      else none
    else none

/-- Exponents beyond this size decide the number alone. -/
def bounded (e : Int) : Int :=
  max (-100000) (min 100000 e)

def decimal? (negative : Bool) (cs : List Char) : Option Float := do
  let (whole, fraction, rest) := mantissa isDigit cs
  if whole = [] ∧ fraction = [] then none
  let e ← exponent? 'e' rest
  some (Binary64.ofDecimal
    ⟨negative, decimalValue (whole ++ fraction), bounded e - fraction.length⟩)

def hexadecimal? (negative : Bool) (cs : List Char) : Option Float := do
  let isHex := fun c => (hexValue? c).isSome
  let (whole, fraction, rest) := mantissa isHex cs
  if whole = [] ∧ fraction = [] then none
  let e ← exponent? 'p' rest
  let n := hexadecimalValue (whole ++ fraction)
  let power := bounded e - 4 * fraction.length
  if 0 ≤ power then some (Binary64.nearest negative (n * Nat.pow 2 power.toNat) 1)
  else some (Binary64.nearest negative n (Nat.pow 2 (-power).toNat))

def unsigned? (negative : Bool) (cs : List Char) : Option Float :=
  match cs.map Char.toLower with
  | ['i', 'n', 'f'] | ['i', 'n', 'f', 'i', 'n', 'i', 't', 'y'] =>
    some (Binary64.nearest negative (Nat.pow 2 1100) 1)
  | '0' :: 'x' :: rest => hexadecimal? negative rest
  | _ => decimal? negative cs

/-- The number a text spells, blanks around it aside. A text that begins with NUL spells zero. -/
def read? (s : String) : Option Float :=
  let trimmed := Text.trimChars s.toList
  if trimmed = [] then none
  else
    let cs := trimmed.takeWhile (· != '\x00')
    if cs = [] then some (Binary64.nearest false 0 1)
    else
      let (negative, rest) := sign cs
      unsigned? negative rest

end Workflow.Numeral
