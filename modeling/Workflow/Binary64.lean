import Workflow.Decimal

namespace Workflow.Binary64

structure Finite where
  negative : Bool
  mantissa : Nat
  exponent : Int
  deriving DecidableEq, Repr

/-- The exact value of a floating number; `none` for infinities and for what is no number. -/
def decode? (x : Float) : Option Finite :=
  let bits : Nat := x.toBits.toNat
  let fraction : Nat := bits % Nat.pow 2 52
  let field : Nat := bits / Nat.pow 2 52 % 2048
  let negative := decide (bits / Nat.pow 2 63 = 1)
  if field = 2047 then none
  else if field = 0 then some ⟨negative, fraction, -1074⟩
  else some ⟨negative, fraction + Nat.pow 2 52, (field : Int) - 1075⟩

/-- The quotient rounded to the nearest whole number, halves to the even neighbour. -/
def roundDiv (num den : Nat) : Nat :=
  let q := num / den
  let r := num % den
  if 2 * r < den then q
  else if den < 2 * r then q + 1
  else if q % 2 = 0 then q else q + 1

def roundScaled (num den : Nat) (shift : Int) : Nat :=
  if 0 ≤ shift then roundDiv num (den * Nat.pow 2 shift.toNat)
  else roundDiv (num * Nat.pow 2 (-shift).toNat) den

/-- The floating number nearest to the fraction, ties to the even one; infinite from half a unit
above the largest. -/
def nearest (negative : Bool) (num den : Nat) : Float :=
  let sign := if negative then Nat.pow 2 63 else 0
  if num = 0 then Float.ofBits (UInt64.ofNat sign)
  else
    let estimate : Int := (num.log2 : Int) - den.log2
    let below := if 0 ≤ estimate then num < den * Nat.pow 2 estimate.toNat
      else num * Nat.pow 2 (-estimate).toNat < den
    let top := if below then estimate - 1 else estimate
    let shift := max (top - 52) (-1074)
    let m := roundScaled num den shift
    let magnitude :=
      if m < Nat.pow 2 52 then m
      else (shift + 1075).toNat * Nat.pow 2 52 + (m - Nat.pow 2 52)
    Float.ofBits (UInt64.ofNat (sign + min magnitude (2047 * Nat.pow 2 52)))

def Finite.num (x : Finite) : Nat :=
  if 0 ≤ x.exponent then x.mantissa * Nat.pow 2 x.exponent.toNat else x.mantissa

def Finite.den (x : Finite) : Nat :=
  if 0 ≤ x.exponent then 1 else Nat.pow 2 (-x.exponent).toNat

/-- The whole number a finite number equals, if it equals one. -/
def Finite.toInt? (x : Finite) : Option Int :=
  if x.num % x.den = 0 then
    let n : Int := ((x.num / x.den : Nat) : Int)
    some (if x.negative then -n else n)
  else none

/-- Exponent of the leading decimal digit of `num / den`. -/
def leadingExponent (num den : Nat) : Int :=
  if den ≤ num then (Decimal.digitCount (num / den) : Int) - 1
  else
    let l := Decimal.digitCount (den / num)
    if den ≤ num * Nat.pow 10 (l - 1) then -((l : Int) - 1) else -(l : Int)

def scaled (num den : Nat) (scale : Int) : Nat × Nat :=
  if 0 ≤ scale then (num * Nat.pow 10 scale.toNat, den)
  else (num, den * Nat.pow 10 (-scale).toNat)

/-- A number rounded to a count of significant digits, halves to the even neighbour. -/
def rounded (count : Nat) (x : Finite) : Decimal :=
  if x.mantissa = 0 then ⟨x.negative, 0, 0⟩
  else
    let scale := (count : Int) - 1 - leadingExponent x.num x.den
    let (n, d) := scaled x.num x.den scale
    Decimal.strip ⟨x.negative, roundDiv n d, -scale⟩

def ofDecimal (d : Decimal) : Float :=
  if d.digits = 0 then nearest d.negative 0 1
  else if 310 < d.leading then nearest d.negative (Nat.pow 2 1100) 1
  else if d.leading < -400 then nearest d.negative 0 1
  else
    let (n, m) := scaled d.digits 1 d.exponent
    nearest d.negative n m

/-- The two neighbours of a number among the decimals of `count` digits, the nearer one first. If
both are equally near, the one with the even last digit comes first. -/
def neighbours (count : Nat) (x : Finite) : List Decimal :=
  let scale := (count : Int) - 1 - leadingExponent x.num x.den
  let (n, d) := scaled x.num x.den scale
  let low : Decimal := Decimal.strip ⟨x.negative, n / d, -scale⟩
  let high : Decimal := Decimal.strip ⟨x.negative, n / d + 1, -scale⟩
  if roundDiv n d = n / d then [low, high] else [high, low]

/-- The fewest digits that read back as the number, and of those the nearest decimal, of two equally
near ones the even one. -/
def shortest (x : Float) (v : Finite) : Decimal :=
  let candidates := (List.range 17).flatMap fun k => neighbours (k + 1) v
  match candidates.find? fun d => (ofDecimal d).toBits == x.toBits with
  | some d => d
  | none => rounded 17 v

end Workflow.Binary64
