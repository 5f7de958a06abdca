namespace Workflow

structure Decimal where
  negative : Bool
  digits : Nat
  exponent : Int
  deriving DecidableEq, Repr

namespace Decimal

def ofInt (i : Int) : Decimal :=
  ⟨decide (i < 0), i.natAbs, 0⟩

/-- The decimal digits of a natural number, most significant first. -/
def digitChars (n : Nat) : List Char :=
  Nat.toDigits 10 n

def digitCount (n : Nat) : Nat :=
  (digitChars n).length

def leading (d : Decimal) : Int :=
  (digitCount d.digits : Int) - 1 + d.exponent

/-- The same number without zeros at the end of its digits. -/
def strip (d : Decimal) : Decimal :=
  go d.digits d.exponent
where
  go (n : Nat) (e : Int) : Decimal :=
    if h : n ≠ 0 ∧ n % 10 = 0 then go (n / 10) (e + 1) else ⟨d.negative, n, e⟩
  termination_by n
  decreasing_by omega

/-- The whole number a decimal denotes, if it denotes one below a hundred digits. -/
def toInt? (d : Decimal) : Option Int :=
  let s := d.strip
  if s.digits = 0 then some 0
  else if s.exponent < 0 || s.exponent > 100 then none
  else
    let n : Nat := s.digits * Nat.pow 10 s.exponent.toNat
    some (if s.negative then -n else n)

def zeros (n : Nat) : List Char :=
  List.replicate n '0'

def positional (ds : List Char) (exponent leading : Int) : List Char :=
  if 0 ≤ exponent then ds ++ zeros exponent.toNat
  else if 0 ≤ leading then
    let whole := leading.toNat + 1
    ds.take whole ++ '.' :: ds.drop whole
  else '0' :: '.' :: (zeros (-leading - 1).toNat ++ ds)

/-- One digit, the others behind a point, and a signed exponent of at least two digits. -/
def scientific (ds : List Char) (leading : Int) : List Char :=
  let mantissa := match ds with
    | [] => []
    | [d] => [d]
    | d :: rest => d :: '.' :: rest
  let e := digitChars leading.natAbs
  mantissa ++ 'e' :: (if leading < 0 then '-' else '+') :: (zeros (2 - e.length) ++ e)

/-- Positional from four zeros behind the point up to `precision` digits before it. -/
def write (precision : Nat) (d : Decimal) : String :=
  let ds := digitChars d.digits
  let body := if d.digits = 0 then ['0']
    else if -4 ≤ d.leading ∧ d.leading < precision then positional ds d.exponent d.leading
    else scientific ds d.leading
  String.ofList (if d.negative then '-' :: body else body)

/-- How long the digits are with a point in its place. -/
def positionalLength (d : Decimal) : Int :=
  let count : Int := digitCount d.digits
  if 0 ≤ d.exponent then count + d.exponent
  else if 0 ≤ d.leading then count + 1
  else count + 1 - d.leading

def scientificLength (d : Decimal) : Int :=
  let count := digitCount d.digits
  (if count = 1 then 1 else count + 1 : Nat) + 2 + max 2 (digitCount d.leading.natAbs : Int)

/-- Whether the positional form is the one to write: it is unless the scientific one is shorter. -/
def isPositional (d : Decimal) : Bool :=
  decide (d.digits = 0 ∨ d.positionalLength ≤ d.scientificLength)

/-- The shorter written form, without leaving out a digit. -/
def toText (d : Decimal) : String :=
  let ds := digitChars d.digits
  let body := if d.digits = 0 then ['0']
    else if d.isPositional then positional ds d.exponent d.leading
    else scientific ds d.leading
  String.ofList (if d.negative then '-' :: body else body)

end Decimal

end Workflow
