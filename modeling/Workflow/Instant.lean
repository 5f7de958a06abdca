namespace Workflow

/-- A point in time, in nanoseconds since 1970. Sums that leave the 64 bits wrap. -/
structure Instant where
  nanos : Int64
  deriving DecidableEq, Repr

namespace Instant

def nanosPerSecond : Int64 := 1000000000

def nanosPerMilli : Int64 := 1000000

def nanosPerHour : Int64 := 3600000000000

def ofMillis (ms : Int64) : Instant :=
  ⟨ms * nanosPerMilli⟩

/-- Whole milliseconds since 1970, counted towards it. -/
def toMillis (t : Instant) : Int64 :=
  t.nanos / nanosPerMilli

/-- Whole milliseconds since 1970 as an unsigned word: earlier times wrap to its upper half. -/
def unixMillis (t : Instant) : UInt64 :=
  t.toMillis.toUInt64

def addHours (t : Instant) (hours : Int64) : Instant :=
  ⟨t.nanos + hours * nanosPerHour⟩

def subHours (t : Instant) (hours : Int64) : Instant :=
  ⟨t.nanos - hours * nanosPerHour⟩

def isAfter (t u : Instant) : Bool :=
  decide (u.nanos < t.nanos)

end Instant

/-- A time as documents hold it: seconds since 1970 and nanoseconds. -/
structure Timestamp where
  seconds : Int64
  nanos : Int64
  deriving DecidableEq, Repr

/-- Splits a time into whole seconds, counted towards 1970, and the nanoseconds left. Both are
negative or zero before 1970. -/
def Instant.toTimestamp (t : Instant) : Timestamp :=
  let seconds := t.nanos / nanosPerSecond
  ⟨seconds, t.nanos - seconds * nanosPerSecond⟩

/-- Whether a time has a written form: it lies in the years 1 to 9999, and its nanoseconds are not
negative. -/
def Timestamp.isPrintable (ts : Timestamp) : Bool :=
  decide (-62135596800 ≤ ts.seconds ∧ ts.seconds ≤ 253402300799 ∧
    0 ≤ ts.nanos ∧ ts.nanos ≤ 999999999)

def Timestamp.toInstant (ts : Timestamp) : Instant :=
  ⟨ts.seconds * Instant.nanosPerSecond + ts.nanos⟩

end Workflow
