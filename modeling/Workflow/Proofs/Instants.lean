import Mathlib.Algebra.Group.Nat.Defs
import Workflow.Calendar
import Workflow.Document.Decode
import Workflow.Document.Encode

namespace Workflow

namespace Instant

def value (t : Instant) : Int :=
  t.nanos.toInt

/-- Whether some point in time is that many nanoseconds from 1970. -/
def Holds (n : Int) : Prop :=
  -9223372036854775808 ≤ n ∧ n ≤ 9223372036854775807

instance (n : Int) : Decidable (Holds n) :=
  inferInstanceAs (Decidable (_ ∧ _))

theorem holds_value (t : Instant) : Holds t.value := by
  have hlow := t.nanos.le_toInt
  have hhigh := t.nanos.toInt_lt
  unfold Holds value
  omega

/-- A number is its own remainder just when the word holds it. -/
theorem bmod_eq_self_iff {n : Int} : n.bmod (2 ^ 64) = n ↔ Holds n := by
  unfold Holds
  constructor
  · intro h
    have hlow := @Int.le_bmod n (2 ^ 64) (by decide)
    have hhigh := @Int.bmod_lt n (2 ^ 64) (by decide)
    omega
  · intro h
    exact Int.bmod_eq_of_le_mul_two (by omega) (by omega)

/-- The word of a remainder is the number itself just when the word holds it. -/
theorem value_eq_iff {t : Instant} {n : Int} (h : t.value = n.bmod (2 ^ 64)) :
    t.value = n ↔ Holds n := by
  rw [h]
  exact bmod_eq_self_iff

theorem value_addHours (t : Instant) (hours : Int64) :
    (t.addHours hours).value = (t.value + hours.toInt * 3600000000000).bmod (2 ^ 64) := by
  have hhour : nanosPerHour.toInt = 3600000000000 := by decide
  rw [value, addHours, Int64.toInt_add, Int64.toInt_mul, Int.add_bmod_bmod, hhour, value]

theorem value_subHours (t : Instant) (hours : Int64) :
    (t.subHours hours).value = (t.value - hours.toInt * 3600000000000).bmod (2 ^ 64) := by
  have hhour : nanosPerHour.toInt = 3600000000000 := by decide
  rw [value, subHours, Int64.toInt_sub, Int64.toInt_mul, Int.sub_bmod_bmod, hhour, value]

theorem seconds_toTimestamp (t : Instant) :
    t.toTimestamp.seconds.toInt = t.value.tdiv 1000000000 := by
  have hsecond : nanosPerSecond.toInt = 1000000000 := by decide
  have hsplit := Int.mul_tdiv_add_tmod t.value 1000000000
  have hlow := Int.lt_tmod_of_pos t.value (show 0 < 1000000000 by decide)
  have hhigh := Int.tmod_lt_of_pos t.value (show 0 < 1000000000 by decide)
  have hword := t.holds_value
  unfold Holds at hword
  rw [toTimestamp, Int64.toInt_div, hsecond, ← value, bmod_eq_self_iff]
  unfold Holds
  omega

/-- The nanoseconds of a date are what is left of whole seconds, counted towards 1970. -/
theorem nanos_toTimestamp (t : Instant) :
    t.toTimestamp.nanos.toInt = t.value.tmod 1000000000 := by
  have hsecond : nanosPerSecond.toInt = 1000000000 := by decide
  have hsplit := Int.mul_tdiv_add_tmod t.value 1000000000
  have hlow := Int.lt_tmod_of_pos t.value (show 0 < 1000000000 by decide)
  have hhigh := Int.tmod_lt_of_pos t.value (show 0 < 1000000000 by decide)
  have hrest : t.value - t.value.tdiv 1000000000 * 1000000000 = t.value.tmod 1000000000 := by omega
  have hseconds := t.seconds_toTimestamp
  rw [toTimestamp] at hseconds ⊢
  simp only at hseconds ⊢
  rw [Int64.toInt_sub, Int64.toInt_mul, Int.sub_bmod_bmod, hseconds, hsecond, ← value, hrest,
    bmod_eq_self_iff]
  unfold Holds
  omega

end Instant

namespace Timestamp

/-- The nanoseconds since 1970 that a date stands for. -/
def value (ts : Timestamp) : Int :=
  ts.seconds.toInt * 1000000000 + ts.nanos.toInt

/-- The dates that have a written form: those of the years 1 to 9999, with nanoseconds that count
from the second on. -/
structure IsValid (ts : Timestamp) : Prop where
  first : Calendar.firstSecond ≤ ts.seconds.toInt
  last : ts.seconds.toInt ≤ Calendar.lastSecond
  nonneg : 0 ≤ ts.nanos.toInt
  below : ts.nanos.toInt < 1000000000

theorem value_toInstant (ts : Timestamp) : ts.toInstant.value = ts.value.bmod (2 ^ 64) := by
  have hsecond : Instant.nanosPerSecond.toInt = 1000000000 := by decide
  rw [toInstant, Instant.value, Int64.toInt_add, Int64.toInt_mul, Int.bmod_add_bmod, hsecond, value]

end Timestamp

namespace Instant

/-- Splitting a point in time: seconds and nanoseconds make it up again, and the nanoseconds are
less than a second and on the same side of 1970. -/
theorem split_toTimestamp (t : Instant) :
    t.toTimestamp.value = t.value ∧
      -1000000000 < t.toTimestamp.nanos.toInt ∧ t.toTimestamp.nanos.toInt < 1000000000 ∧
      (0 ≤ t.value → 0 ≤ t.toTimestamp.nanos.toInt) ∧
      (t.value ≤ 0 → t.toTimestamp.nanos.toInt ≤ 0) := by
  rw [Timestamp.value, t.seconds_toTimestamp, t.nanos_toTimestamp]
  have hsplit := Int.mul_tdiv_add_tmod t.value 1000000000
  refine ⟨by omega, Int.lt_tmod_of_pos _ (by decide), Int.tmod_lt_of_pos _ (by decide),
    Int.tmod_nonneg _, ?_⟩
  intro h
  have hneg := Int.tmod_nonneg (a := -t.value) 1000000000 (by omega)
  rw [Int.neg_tmod] at hneg
  omega

/-- A point in time is written as a date unless it is in the middle of a second before 1970. -/
theorem isValid_toTimestamp_iff (t : Instant) :
    t.toTimestamp.IsValid ↔ 0 ≤ t.value ∨ t.toTimestamp.nanos = 0 := by
  obtain ⟨hsum, hlow, hhigh, hafter, hbefore⟩ := t.split_toTimestamp
  have hword := t.holds_value
  rw [← Int64.toInt_inj, Int64.toInt_zero]
  unfold Holds at hword
  unfold Timestamp.value at hsum
  constructor
  · intro h
    have hnonneg := h.nonneg
    omega
  · intro h
    refine ⟨?_, ?_, by omega, hhigh⟩
    · show -62135596800 ≤ t.toTimestamp.seconds.toInt
      omega
    · show t.toTimestamp.seconds.toInt ≤ 253402300799
      omega

end Instant

namespace Timestamp

variable {ts : Timestamp}

/-- Dates with nanoseconds below a second are told apart by what they stand for. -/
theorem IsValid.toTimestamp_eq_iff (h : ts.IsValid) (t : Instant) :
    t.toTimestamp = ts ↔ t.value = ts.value ∧ (0 ≤ ts.seconds ∨ ts.nanos = 0) := by
  obtain ⟨hsum, hlow, hhigh, hafter, hbefore⟩ := t.split_toTimestamp
  have hnonneg := h.nonneg
  have hbelow := h.below
  have hparts : t.toTimestamp = ts ↔
      t.toTimestamp.seconds.toInt = ts.seconds.toInt ∧
        t.toTimestamp.nanos.toInt = ts.nanos.toInt := by
    rw [Int64.toInt_inj, Int64.toInt_inj]
    cases ts
    cases t.toTimestamp
    simp
  rw [hparts, Int64.le_iff_toInt_le, ← Int64.toInt_inj (y := 0), Int64.toInt_zero]
  unfold value at hsum ⊢
  constructor
  · intro hboth
    omega
  · intro hboth
    omega

/-- A date comes back from a point in time just when the word holds it and it is a whole second or
not before 1970. -/
theorem IsValid.returns_iff (h : ts.IsValid) :
    ts.toInstant.toTimestamp = ts ↔
      Instant.Holds ts.value ∧ (0 ≤ ts.seconds ∨ ts.nanos = 0) := by
  rw [h.toTimestamp_eq_iff, Instant.value_eq_iff ts.value_toInstant]

/-- What comes back stands for the same time just when the word holds it. -/
theorem same_time_iff (ts : Timestamp) :
    ts.toInstant.toTimestamp.value = ts.value ↔ Instant.Holds ts.value := by
  rw [ts.toInstant.split_toTimestamp.1, Instant.value_eq_iff ts.value_toInstant]

end Timestamp

/-- A dated deadline is accepted, and it is written with what comes back of its date. -/
theorem Deadline.date_toDocument {due : Document.Due} {ts : Timestamp} (h : due.date = some ts) :
    ∃ d, Deadline.ofDocument due = .ok d ∧
      d.toDocument.date = some ts.toInstant.toTimestamp := by
  obtain ⟨kind, value, unit, date⟩ := due
  obtain rfl : date = some ts := h
  exact ⟨_, if_pos (Bool.or_true _), rfl⟩

namespace Calendar

theorem digit_lt {c : Char} (h : c.isDigit = true) : c.toNat - 48 < 10 := by
  simp only [Char.isDigit, ge_iff_le, Bool.and_eq_true, decide_eq_true_eq,
    UInt32.le_iff_toNat_le] at h
  have hhigh : c.toNat ≤ 57 := h.2
  omega

theorem digits_lt (ds : List Char) (h : ds.all Char.isDigit = true) (n : Nat) :
    ds.foldl (fun n c => 10 * n + (c.toNat - 48)) n < (n + 1) * 10 ^ ds.length := by
  induction ds generalizing n with
  | nil => simp
  | cons c rest ih =>
    rw [List.all_cons, Bool.and_eq_true] at h
    have hdigit := digit_lt h.1
    have hle : (10 * n + (c.toNat - 48) + 1) * 10 ^ rest.length ≤
        ((n + 1) * 10) * 10 ^ rest.length :=
      Nat.mul_le_mul_right _ (by omega)
    rw [List.foldl_cons, List.length_cons, Nat.pow_succ', ← Nat.mul_assoc]
    exact Nat.lt_of_lt_of_le (ih h.2 _) hle

theorem number?_lt {width n : Nat} {cs rest : List Char} (h : number? width cs = some (n, rest)) :
    n < 10 ^ width := by
  unfold number? at h
  dsimp only at h
  split at h
  · rename_i hds
    have hlt := digits_lt _ hds.2 0
    rw [hds.1] at hlt
    cases h
    omega
  · cases h

/-- A fraction is less than a second. -/
theorem fraction?_lt {n : Nat} {cs rest : List Char} (h : fraction? cs = some (n, rest)) :
    n < 1000000000 := by
  unfold fraction? at h
  split at h
  · rename_i cs
    simp only [Option.bind_eq_bind] at h
    split at h
    · cases h
    · rename_i hlength
      obtain ⟨⟨m, _⟩, hnumber, hn⟩ := Option.bind_eq_some_iff.mp h
      cases hn
      have hlt := number?_lt hnumber
      have hpow : 10 ^ (cs.takeWhile Char.isDigit).length *
          10 ^ (9 - (cs.takeWhile Char.isDigit).length) = 1000000000 := by
        rw [← Nat.pow_add, Nat.add_sub_cancel' (by omega)]
      rw [← hpow]
      exact Nat.mul_lt_mul_of_pos_right hlt (Nat.pow_pos (by decide))
  · cases h
    decide

/-- What a date that is read is made of. -/
theorem exists_of_read? {text : String} {ts : Timestamp} (h : read? text = some ts) :
    ∃ (seconds : Int) (nanos : Nat), firstSecond ≤ seconds ∧ seconds ≤ lastSecond ∧
      nanos < 1000000000 ∧ ts = ⟨Int64.ofInt seconds, Int64.ofNat nanos⟩ := by
  unfold read? at h
  obtain ⟨⟨year, _⟩, -, h⟩ := Option.bind_eq_some_iff.mp h
  obtain ⟨_, -, h⟩ := Option.bind_eq_some_iff.mp h
  obtain ⟨⟨month, _⟩, -, h⟩ := Option.bind_eq_some_iff.mp h
  obtain ⟨_, -, h⟩ := Option.bind_eq_some_iff.mp h
  obtain ⟨⟨day, _⟩, -, h⟩ := Option.bind_eq_some_iff.mp h
  obtain ⟨_, -, h⟩ := Option.bind_eq_some_iff.mp h
  obtain ⟨⟨hour, _⟩, -, h⟩ := Option.bind_eq_some_iff.mp h
  obtain ⟨_, -, h⟩ := Option.bind_eq_some_iff.mp h
  obtain ⟨⟨minute, _⟩, -, h⟩ := Option.bind_eq_some_iff.mp h
  obtain ⟨_, -, h⟩ := Option.bind_eq_some_iff.mp h
  obtain ⟨⟨second, _⟩, -, h⟩ := Option.bind_eq_some_iff.mp h
  obtain ⟨⟨nanos, _⟩, hfraction, h⟩ := Option.bind_eq_some_iff.mp h
  obtain ⟨offset, -, h⟩ := Option.bind_eq_some_iff.mp h
  dsimp only at h
  split at h
  · cases h
  · split at h
    · cases h
    · split at h
      · cases h
      · rename_i hrange
        obtain ⟨hfirst, hlast⟩ := not_or.mp hrange
        exact ⟨_, nanos, Int.not_lt.mp hfirst, Int.not_lt.mp hlast, fraction?_lt hfraction,
          (Option.some.inj h).symm⟩

/-- What is read is a date that has a written form. -/
theorem isValid_of_read? {text : String} {ts : Timestamp} (h : read? text = some ts) :
    ts.IsValid := by
  obtain ⟨seconds, nanos, hfirst, hlast, hnanos, rfl⟩ := exists_of_read? h
  have hseconds : (Int64.ofInt seconds).toInt = seconds := by
    unfold firstSecond lastSecond at *
    exact Int64.toInt_ofInt_of_le (by omega) (by omega)
  have hrest : (Int64.ofNat nanos).toInt = nanos := Int64.toInt_ofNat_of_lt (by omega)
  refine ⟨?_, ?_, ?_, ?_⟩
  · rwa [hseconds]
  · rwa [hseconds]
  · rw [hrest]
    omega
  · rw [hrest]
    omega

/-- Dates that are read have a written form, and one that has comes back from a point in time just
when the word holds it and it is a whole second or not before 1970. What comes back stands for the
same time just when the word holds that, and it can be written unless it is in the middle of a
second before 1970. A deadline is written with what comes back of its date. -/
theorem dates_return (ts : Timestamp) :
    (∀ text, read? text = some ts → ts.IsValid) ∧
    (∀ due : Document.Due, due.date = some ts →
      ∃ d, Deadline.ofDocument due = .ok d ∧
        d.toDocument.date = some ts.toInstant.toTimestamp) ∧
    (ts.IsValid →
      (ts.toInstant.toTimestamp = ts ↔
        Instant.Holds ts.value ∧ (0 ≤ ts.seconds ∨ ts.nanos = 0)) ∧
      (ts.toInstant.toTimestamp.value = ts.value ↔ Instant.Holds ts.value) ∧
      (ts.toInstant.toTimestamp.IsValid ↔
        0 ≤ ts.toInstant.value ∨ ts.toInstant.toTimestamp.nanos = 0)) := by
  refine ⟨fun _ => isValid_of_read?, fun _ => Deadline.date_toDocument, ?_⟩
  intro h
  exact ⟨h.returns_iff, ts.same_time_iff, ts.toInstant.isValid_toTimestamp_iff⟩

/-- The last time that the word holds to the second. -/
theorem dates_return_last :
    read? "2262-04-11T23:47:16Z" = some ⟨9223372036, 0⟩ ∧
      (⟨9223372036, 0⟩ : Timestamp).toInstant.toTimestamp = ⟨9223372036, 0⟩ := by
  have hread : read? "2262-04-11T23:47:16Z" = some ⟨9223372036, 0⟩ := by decide
  obtain ⟨hvalid, -, hreturns⟩ := dates_return ⟨9223372036, 0⟩
  exact ⟨hread, (hreturns (hvalid _ hread)).1.mpr ⟨by decide, by decide⟩⟩

/-- Half a second before 1970 is read, and comes back with negative nanoseconds. The first second
that the word does not hold is read, and comes back as a time in 1677. -/
theorem dates_lost :
    (∃ ts, read? "1969-12-31T23:59:59.5Z" = some ts ∧ ts.toInstant.toTimestamp ≠ ts ∧
      ¬ ts.toInstant.toTimestamp.IsValid) ∧
    ∃ ts, read? "2262-04-11T23:47:17Z" = some ts ∧
      ts.toInstant.toTimestamp.value ≠ ts.value := by
  refine ⟨⟨⟨-1, 500000000⟩, by decide, by decide, ?_⟩, ⟨9223372037, 0⟩,
    by decide, by decide⟩
  intro h
  exact absurd h.nonneg (by decide)

end Calendar

end Workflow
