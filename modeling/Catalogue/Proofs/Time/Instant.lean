import Catalogue.Proofs.Time.Calendar
import Mathlib.Algebra.Group.Nat.Defs

/-!
# Instants and their parts

An instant has a date, an hour, a minute and a second, and these parts name it again. Inside a leap
second the clock shows one second more than the last of the minute.

* `ofParts?_clock` — the parts that the clock shows name the instant.
-/

namespace Catalogue.Time

theorem make?_self (t : Instant) : Instant.make? t.day t.second t.nanos = some t := by
  rw [Instant.make?, dif_pos ⟨t.day_mem, t.second_lt, t.nanos_lt, t.leap_second⟩]

/-! ## Bounds -/

/-- The months and days of a date of the calendar. -/
theorem civil_bounds (number : Int) :
    1 ≤ (civil number).month ∧ (civil number).month ≤ 12 ∧ (civil number).day ≤ 31 := by
  have hvalid : (civil number).isValid = true := isValid_civil number
  simp only [Date.isValid, Bool.and_eq_true, decide_eq_true_iff] at hvalid
  have hdays : daysInMonth (civil number).year (civil number).month ≤ 31 := by
    unfold daysInMonth
    split
    · split <;> omega
    · split <;> omega
  omega

namespace Instant

theorem hour_lt (t : Instant) : t.hour < 24 := by
  have := t.second_lt
  unfold hour
  omega

theorem minute_lt (t : Instant) : t.minute < 60 := Nat.mod_lt _ (by decide)

theorem secondOfMinute_lt (t : Instant) : t.secondOfMinute < 60 := Nat.mod_lt _ (by decide)

/-- Hours, minutes and seconds make up the second of the day. -/
theorem sum_parts (t : Instant) : t.hour * 3600 + t.minute * 60 + t.secondOfMinute = t.second := by
  unfold hour minute secondOfMinute
  omega

/-- The second that the clock shows: in a leap second, the one after the last of the minute. -/
def clockSecond (t : Instant) : Nat := if t.isLeap then t.secondOfMinute + 1 else t.secondOfMinute

theorem clockSecond_le (t : Instant) : t.clockSecond ≤ 60 := by
  have := t.secondOfMinute_lt
  unfold clockSecond
  split <;> omega

/-! ## Parts -/

/-- The parts that the clock shows name the instant. -/
theorem ofParts?_clock (t : Instant) :
    ofParts? t.date t.hour t.minute t.clockSecond (t.nanos % 1000000000) = some t := by
  have hhour := t.hour_lt
  have hminute := t.minute_lt
  have hsecond := t.secondOfMinute_lt
  have hle := t.clockSecond_le
  have hnanos := t.nanos_lt
  rw [ofParts?, if_pos]
  · show (if _ then make? (dayNumber (civil t.day)) _ _
      else make? (dayNumber (civil t.day)) _ _) = _
    rw [dayNumber_civil]
    by_cases hleap : 1000000000 ≤ t.nanos
    · have hlast : t.secondOfMinute = 59 := t.leap_second hleap
      have hsum := t.sum_parts
      rw [hlast] at hsum
      have hfraction : 1000000000 + t.nanos % 1000000000 = t.nanos := by omega
      rw [clockSecond, isLeap, decide_eq_true hleap, if_pos rfl, hlast, if_pos (by decide), hsum,
        hfraction, make?_self]
    · have hfraction : t.nanos % 1000000000 = t.nanos := by omega
      have hsixty : (t.secondOfMinute == 60) = false := by
        rw [beq_eq_false_iff_ne]
        omega
      rw [clockSecond, isLeap, decide_eq_false hleap, if_neg Bool.false_ne_true, hsixty,
        if_neg Bool.false_ne_true, t.sum_parts, hfraction, make?_self]
  · simp only [date, isValid_civil, Bool.true_and, Bool.and_eq_true, decide_eq_true_iff]
    omega

/-- The parts of an instant outside of leap seconds name it. -/
theorem ofParts?_self (t : Instant) (h : t.nanos < 10 ^ 9) :
    ofParts? t.date t.hour t.minute t.secondOfMinute t.nanos = some t := by
  have hclock := t.ofParts?_clock
  have hleap : t.isLeap = false := by
    rw [isLeap, decide_eq_false_iff_not]
    omega
  have hfraction : t.nanos % 1000000000 = t.nanos := by omega
  rwa [clockSecond, hleap, if_neg Bool.false_ne_true, hfraction] at hclock

end Instant

end Catalogue.Time
