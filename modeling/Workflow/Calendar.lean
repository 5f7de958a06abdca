import Workflow.Decimal
import Workflow.Instant

namespace Workflow.Calendar

def isLeap (year : Int) : Bool :=
  year % 4 = 0 && (year % 100 ≠ 0 || year % 400 = 0)

def daysInMonth (year : Int) (month : Nat) : Nat :=
  match month with
  | 2 => if isLeap year then 29 else 28
  | 4 | 6 | 9 | 11 => 30
  | _ => 31

structure Date where
  year : Int
  month : Nat
  day : Nat
  deriving DecidableEq, Repr

/-- Days from 1970-01-01. Years are counted from March, so that a leap day ends one. -/
def Date.toDays (d : Date) : Int :=
  let y := if d.month ≤ 2 then d.year - 1 else d.year
  let era := y.fdiv 400
  let yearOfEra := y - era * 400
  let dayOfYear : Int := ((153 * ((d.month + 9) % 12) + 2) / 5 + d.day - 1 : Nat)
  let dayOfEra := yearOfEra * 365 + yearOfEra / 4 - yearOfEra / 100 + dayOfYear
  era * 146097 + dayOfEra - 719468

def Date.ofDays (days : Int) : Date :=
  let z := days + 719468
  let era := z.fdiv 146097
  let dayOfEra := z - era * 146097
  let yearOfEra := (dayOfEra - dayOfEra / 1460 + dayOfEra / 36524 - dayOfEra / 146096) / 365
  let dayOfYear := (dayOfEra - (365 * yearOfEra + yearOfEra / 4 - yearOfEra / 100)).toNat
  let m := (5 * dayOfYear + 2) / 153
  let day := dayOfYear - (153 * m + 2) / 5 + 1
  let month := if m < 10 then m + 3 else m - 9
  let year := yearOfEra + era * 400
  ⟨if month ≤ 2 then year + 1 else year, month, day⟩

/-- The digits of a number behind as many zeros as fill the width. -/
def padded (width n : Nat) : List Char :=
  let ds := Decimal.digitChars n
  Decimal.zeros (width - ds.length) ++ ds

/-- Nothing for whole seconds, else three, six or nine digits. -/
def fraction (nanos : Nat) : List Char :=
  if nanos = 0 then []
  else if nanos % 1000000 = 0 then '.' :: padded 3 (nanos / 1000000)
  else if nanos % 1000 = 0 then '.' :: padded 6 (nanos / 1000)
  else '.' :: padded 9 nanos

/-- The text of a timestamp, in UTC. Its nanoseconds count from its second on. -/
def print (ts : Timestamp) : String :=
  let seconds := ts.seconds.toInt
  let date := Date.ofDays (seconds.fdiv 86400)
  let time := (seconds.fmod 86400).toNat
  String.ofList (padded 4 date.year.toNat ++ '-' :: padded 2 date.month ++ '-' :: padded 2 date.day
    ++ 'T' :: padded 2 (time / 3600) ++ ':' :: padded 2 (time / 60 % 60)
    ++ ':' :: padded 2 (time % 60)
    ++ fraction ts.nanos.toInt.toNat ++ ['Z'])

/-- A number of exactly `width` digits, and what follows it. -/
def number? (width : Nat) (cs : List Char) : Option (Nat × List Char) :=
  let ds := cs.take width
  if ds.length = width ∧ ds.all Char.isDigit then
    some (ds.foldl (fun n c => 10 * n + (c.toNat - 48)) 0, cs.drop width)
  else none

def mark? (c : Char) : List Char → Option (List Char)
  | d :: rest => if c = d then some rest else none
  | [] => none

/-- The nanoseconds of an optional fraction of one to nine digits, and what follows it. -/
def fraction? : List Char → Option (Nat × List Char)
  | '.' :: rest => do
    let ds := rest.takeWhile Char.isDigit
    if ds = [] ∨ 9 < ds.length then none
    let (n, _) ← number? ds.length ds
    some (n * Nat.pow 10 (9 - ds.length), rest.dropWhile Char.isDigit)
  | rest => some (0, rest)

def offset? : List Char → Option Int
  | ['Z'] => some 0
  | sign :: rest => do
    if sign ≠ '+' ∧ sign ≠ '-' then none
    let (hours, rest) ← number? 2 rest
    let rest ← mark? ':' rest
    let (minutes, rest) ← number? 2 rest
    if 23 < hours ∨ 59 < minutes ∨ rest ≠ [] then none
    let seconds : Int := hours * 3600 + minutes * 60
    some (if sign = '-' then -seconds else seconds)
  | [] => none

/-- First and last second of the years 1 to 9999. -/
def firstSecond : Int := -62135596800
def lastSecond : Int := 253402300799

def read? (s : String) : Option Timestamp := do
  let (year, cs) ← number? 4 s.toList
  let cs ← mark? '-' cs
  let (month, cs) ← number? 2 cs
  let cs ← mark? '-' cs
  let (day, cs) ← number? 2 cs
  let cs ← mark? 'T' cs
  let (hour, cs) ← number? 2 cs
  let cs ← mark? ':' cs
  let (minute, cs) ← number? 2 cs
  let cs ← mark? ':' cs
  let (second, cs) ← number? 2 cs
  let (nanos, cs) ← fraction? cs
  let offset ← offset? cs
  if year = 0 ∨ month < 1 ∨ 12 < month ∨ day < 1 ∨ daysInMonth year month < day then none
  if 23 < hour ∨ 59 < minute ∨ 59 < second then none
  let seconds := (Date.toDays ⟨year, month, day⟩) * 86400 +
    (hour * 3600 + minute * 60 + second : Nat) - offset
  if seconds < firstSecond ∨ lastSecond < seconds then none
  some ⟨Int64.ofInt seconds, Int64.ofNat nanos⟩

end Workflow.Calendar
