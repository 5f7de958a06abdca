import Workflow.Deadline
import Workflow.Proofs.Instants

namespace Workflow

namespace Deadline

variable {d e : Deadline}

/-- The length of a deadline in nanoseconds, as an exact number. -/
def length (d : Deadline) : Int :=
  d.unit.inHours.toInt * d.value.toInt * 3600000000000

theorem toInt_hours (d : Deadline) :
    d.hours.toInt = (d.unit.inHours.toInt * d.value.toInt).bmod (2 ^ 64) :=
  Int64.toInt_mul _ _

theorem value_addHours (d : Deadline) (t : Instant) :
    (t.addHours d.hours).value = (t.value + d.length).bmod (2 ^ 64) := by
  rw [Instant.value_addHours, d.toInt_hours, ← Int.add_bmod_bmod, Int.bmod_mul_bmod,
    Int.add_bmod_bmod, length]

theorem value_subHours (d : Deadline) (t : Instant) :
    (t.subHours d.hours).value = (t.value - d.length).bmod (2 ^ 64) := by
  rw [Instant.value_subHours, d.toInt_hours, ← Int.sub_bmod_bmod, Int.bmod_mul_bmod,
    Int.sub_bmod_bmod, length]

theorem inHours_pos (unit : DeadlineUnit) : 0 < unit.inHours.toInt := by
  cases unit <;> decide

theorem length_nonneg (h : 0 ≤ d.value) : 0 ≤ d.length := by
  rw [Int64.le_iff_toInt_le, Int64.toInt_zero] at h
  exact Int.mul_nonneg (Int.mul_nonneg (Int.le_of_lt (inHours_pos d.unit)) h) (by decide)

/-- Of two deadlines in the same unit the one with the greater value is longer. -/
theorem length_lt (hunit : d.unit = e.unit) (h : d.value < e.value) : d.length < e.length := by
  rw [Int64.lt_iff_toInt_lt] at h
  rw [length, length, hunit]
  exact Int.mul_lt_mul_of_pos_right (Int.mul_lt_mul_of_pos_left h (inHours_pos e.unit)) (by decide)

theorem length_pos (h : 0 < d.value) : 0 < d.length := by
  rw [Int64.lt_iff_toInt_lt, Int64.toInt_zero] at h
  exact Int.mul_pos (Int.mul_pos (inHours_pos d.unit) h) (by decide)

theorem ofStep_relative (hkind : d.kind = .relative) (hvalue : 0 < d.value) (start : Instant)
    (flowDue : Option Instant) : d.ofStep start flowDue = some (start.addHours d.hours) := by
  rw [ofStep, hkind]
  exact if_neg (Int64.not_le.mpr hvalue)

theorem ofStep_beforeFlowDue (hkind : d.kind = .beforeFlowDue) (start flowDue : Instant) :
    d.ofStep start (some flowDue) = some (flowDue.subHours d.hours) := by
  rw [ofStep, hkind]
  rfl

end Deadline

/-- The length of a number of days in nanoseconds, as an exact number. -/
def daysInNanos (days : UInt32) : Int :=
  days.toNat * 86400000000000

theorem daysInNanos_eq (days : UInt32) :
    24 * (days.toNat : Int) * 3600000000000 = daysInNanos days := by
  unfold daysInNanos
  omega

theorem daysInNanos_nonneg (days : UInt32) : 0 ≤ daysInNanos days := by
  unfold daysInNanos
  omega

theorem toInt_daysInHours (days : UInt32) : (daysInHours days).toInt = 24 * days.toNat := by
  have hlt := days.toNat_lt
  have hdays : days.toUInt64.toInt64.toInt = days.toNat := by
    rw [Int64.toInt, UInt64.toBitVec_toInt64, BitVec.toInt_eq_toNat_bmod, UInt64.toNat_toBitVec,
      UInt32.toNat_toUInt64]
    exact Int.bmod_eq_of_le_mul_two (by omega) (by omega)
  have hday : (24 : Int64).toInt = 24 := by decide
  rw [daysInHours, Int64.toInt_mul, hdays, hday]
  exact Int.bmod_eq_of_le_mul_two (by omega) (by omega)

namespace ReminderPolicy

variable {p : ReminderPolicy} {due now : Instant} {timer : Timer}

theorem value_addDays (t : Instant) (days : UInt32) :
    (t.addHours (daysInHours days)).value = (t.value + daysInNanos days).bmod (2 ^ 64) := by
  rw [Instant.value_addHours, toInt_daysInHours, daysInNanos_eq]

theorem value_subDays (t : Instant) (days : UInt32) :
    (t.subHours (daysInHours days)).value = (t.value - daysInNanos days).bmod (2 ^ 64) := by
  rw [Instant.value_subHours, toInt_daysInHours, daysInNanos_eq]

/-- The timers of a step: the reminder if it does not lie in the past, the deadline itself, and the
escalation. -/
theorem mem_timers_iff :
    timer ∈ p.timers due now ↔
      (p.remind = true ∧ now.value < (due.subHours (daysInHours p.remindDays)).value) ∧
          timer = ⟨.reminder, due.subHours (daysInHours p.remindDays)⟩ ∨
        p.overdue = true ∧ timer = ⟨.overdue, due⟩ ∨
          ∃ days, p.escalateDays = some days ∧
            timer = ⟨.escalation, due.addHours (daysInHours days)⟩ := by
  have hafter : (due.subHours (daysInHours p.remindDays)).isAfter now = true ↔
      now.value < (due.subHours (daysInHours p.remindDays)).value := by
    rw [Instant.isAfter, decide_eq_true_iff, Int64.lt_iff_toInt_lt]
    rfl
  rw [timers, List.mem_append, List.mem_append, ← hafter, ← Bool.and_eq_true, or_assoc]
  refine or_congr ?_ (or_congr ?_ ?_)
  · rw [List.mem_ite_nil_right, List.mem_singleton]
  · rw [List.mem_ite_nil_right, List.mem_singleton]
  · cases p.escalateDays <;> simp

/-- There is at most one timer of each kind. -/
theorem nodup_kinds (p : ReminderPolicy) (due now : Instant) :
    ((p.timers due now).map Timer.kind).Nodup := by
  unfold timers
  dsimp only
  split <;> split <;> cases p.escalateDays <;> simp

/-- How the timers of a step lie around its deadline. A reminder is never in the past; it is the
exact difference, and not after the deadline, while the word holds that difference. An escalation is
the exact sum, and not before the deadline, while the word holds that sum. -/
theorem timers_around (h : timer ∈ p.timers due now) :
    (timer.kind = .reminder → now.value < timer.fireAt.value ∧
      (timer.fireAt.value = due.value - daysInNanos p.remindDays ↔
        Instant.Holds (due.value - daysInNanos p.remindDays)) ∧
      (Instant.Holds (due.value - daysInNanos p.remindDays) →
        timer.fireAt.value ≤ due.value)) ∧
    (timer.kind = .overdue → timer.fireAt = due) ∧
    (timer.kind = .escalation → ∃ days, p.escalateDays = some days ∧
      (timer.fireAt.value = due.value + daysInNanos days ↔
        Instant.Holds (due.value + daysInNanos days)) ∧
      (Instant.Holds (due.value + daysInNanos days) → due.value ≤ timer.fireAt.value)) := by
  rcases mem_timers_iff.mp h with
    ⟨⟨-, hnow⟩, rfl⟩ | ⟨-, rfl⟩ | ⟨days, hescalate, rfl⟩
  · have hexact := Instant.value_eq_iff (value_subDays due p.remindDays)
    refine ⟨fun _ => ⟨hnow, hexact, ?_⟩, nofun, nofun⟩
    intro hholds
    have hreminder := hexact.mpr hholds
    have hlength := daysInNanos_nonneg p.remindDays
    show (due.subHours (daysInHours p.remindDays)).value ≤ due.value
    omega
  · exact ⟨nofun, fun _ => rfl, nofun⟩
  · have hexact := Instant.value_eq_iff (value_addDays due days)
    refine ⟨nofun, nofun, fun _ => ⟨days, hescalate, hexact, ?_⟩⟩
    intro hholds
    have hescalation := hexact.mpr hholds
    have hlength := daysInNanos_nonneg days
    show due.value ≤ (due.addHours (daysInHours days)).value
    omega

end ReminderPolicy

namespace Deadline

variable {d e : Deadline}

/-- A relative deadline is the exact sum, and after the start, while the word holds that sum. -/
theorem relative_exact (hkind : d.kind = .relative) (hvalue : 0 < d.value) (start : Instant)
    (flowDue : Option Instant) :
    ∃ due, d.ofStep start flowDue = some due ∧
      (due.value = start.value + d.length ↔ Instant.Holds (start.value + d.length)) ∧
      (Instant.Holds (start.value + d.length) → start.value < due.value) := by
  have hexact := Instant.value_eq_iff (d.value_addHours start)
  refine ⟨_, ofStep_relative hkind hvalue start flowDue, hexact, ?_⟩
  intro hholds
  have hdue := hexact.mpr hholds
  have hlength := length_pos hvalue
  omega

/-- A greater value gives a later deadline while the word holds it. -/
theorem relative_increasing (hd : d.kind = .relative) (he : e.kind = .relative)
    (hunit : d.unit = e.unit) (hvalue : 0 < d.value) (hlt : d.value < e.value) {start : Instant}
    (hholds : Instant.Holds (start.value + e.length)) (flowDue : Option Instant) :
    ∃ due due', d.ofStep start flowDue = some due ∧ e.ofStep start flowDue = some due' ∧
      due.value < due'.value := by
  have hlength := length_lt hunit hlt
  have hpos := length_pos hvalue
  have hstart := start.holds_value
  have hholds' : Instant.Holds (start.value + d.length) := by
    unfold Instant.Holds at *
    omega
  obtain ⟨due, hdue, hexact, -⟩ := relative_exact hd hvalue start flowDue
  obtain ⟨due', hdue', hexact', -⟩ :=
    relative_exact he (Int64.lt_trans hvalue hlt) start flowDue
  refine ⟨due, due', hdue, hdue', ?_⟩
  rw [hexact.mpr hholds', hexact'.mpr hholds]
  omega

/-- A deadline before the end of the run is the exact difference, and not after that end, while the
word holds that difference. -/
theorem beforeFlowDue_exact (hkind : d.kind = .beforeFlowDue) (hvalue : 0 ≤ d.value)
    (start flowDue : Instant) :
    ∃ due, d.ofStep start (some flowDue) = some due ∧
      (due.value = flowDue.value - d.length ↔ Instant.Holds (flowDue.value - d.length)) ∧
      (Instant.Holds (flowDue.value - d.length) → due.value ≤ flowDue.value) := by
  have hexact := Instant.value_eq_iff (d.value_subHours flowDue)
  refine ⟨_, ofStep_beforeFlowDue hkind start flowDue, hexact, ?_⟩
  intro hholds
  have hdue := hexact.mpr hholds
  have hlength := length_nonneg hvalue
  omega

/-- Deadlines and timers are exact just while the word holds the exact sums behind them, and in
their order then. Whatever wraps, there is at most one timer of each kind, no reminder lies in the
past and the overdue timer stands at the deadline. -/
theorem exact_while_held (d : Deadline) (start : Instant) (flowDue : Option Instant)
    (p : ReminderPolicy) (now : Instant) :
    (d.kind = .relative → 0 < d.value →
      (∃ due, d.ofStep start flowDue = some due ∧
        (due.value = start.value + d.length ↔ Instant.Holds (start.value + d.length)) ∧
        (Instant.Holds (start.value + d.length) → start.value < due.value)) ∧
      ∀ e : Deadline, e.kind = .relative → d.unit = e.unit → d.value < e.value →
        Instant.Holds (start.value + e.length) →
          ∃ due due', d.ofStep start flowDue = some due ∧ e.ofStep start flowDue = some due' ∧
            due.value < due'.value) ∧
    (d.kind = .beforeFlowDue → 0 ≤ d.value → ∀ last, flowDue = some last →
      ∃ due, d.ofStep start flowDue = some due ∧
        (due.value = last.value - d.length ↔ Instant.Holds (last.value - d.length)) ∧
        (Instant.Holds (last.value - d.length) → due.value ≤ last.value)) ∧
    ∀ due, ((p.timers due now).map Timer.kind).Nodup ∧
      ∀ timer ∈ p.timers due now,
        (timer.kind = .reminder → now.value < timer.fireAt.value ∧
          (timer.fireAt.value = due.value - daysInNanos p.remindDays ↔
            Instant.Holds (due.value - daysInNanos p.remindDays)) ∧
          (Instant.Holds (due.value - daysInNanos p.remindDays) →
            timer.fireAt.value ≤ due.value)) ∧
        (timer.kind = .overdue → timer.fireAt = due) ∧
        (timer.kind = .escalation → ∃ days, p.escalateDays = some days ∧
          (timer.fireAt.value = due.value + daysInNanos days ↔
            Instant.Holds (due.value + daysInNanos days)) ∧
          (Instant.Holds (due.value + daysInNanos days) → due.value ≤ timer.fireAt.value)) := by
  refine ⟨?_, ?_, ?_⟩
  · intro hkind hvalue
    refine ⟨relative_exact hkind hvalue start flowDue, ?_⟩
    intro e he hunit hlt hholds
    exact relative_increasing hkind he hunit hvalue hlt hholds flowDue
  · rintro hkind hvalue last rfl
    exact beforeFlowDue_exact hkind hvalue start last
  · intro due
    exact ⟨p.nodup_kinds due now, fun _ => ReminderPolicy.timers_around⟩

namespace Sample

/-- A deadline of so many hours from the start of a step. -/
def hours (value : Int64) : Deadline :=
  ⟨.relative, value, .hours, none⟩

end Sample

/-- The last number of hours from 1970 on that the word holds. -/
theorem exact_while_held_hours :
    0 < (Sample.hours 2562047).value ∧
      ∃ due, (Sample.hours 2562047).ofStep ⟨0⟩ none = some due ∧
        due.value = 9223369200000000000 := by
  have hvalue : 0 < (Sample.hours 2562047).value := by decide
  obtain ⟨hrelative, -, -⟩ := exact_while_held (Sample.hours 2562047) ⟨0⟩ none {} ⟨0⟩
  obtain ⟨⟨due, hdue, hexact, -⟩, -⟩ := hrelative rfl hvalue
  exact ⟨hvalue, due, hdue, hexact.mpr (by decide)⟩

/-- One hour more, and the deadline lies before the start. -/
theorem relative_wraps :
    ∃ due, (Sample.hours 2562048).ofStep ⟨0⟩ none = some due ∧
      due.value ≠ (⟨0⟩ : Instant).value + (Sample.hours 2562048).length ∧
      due.value < (⟨0⟩ : Instant).value :=
  ⟨_, rfl, by decide, by decide⟩

end Deadline

end Workflow
