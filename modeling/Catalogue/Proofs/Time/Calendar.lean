import Catalogue.Time.Instant

/-!
# Day numbers and civil dates

A day of a 400-year era is taken apart into centuries, four-year spans, years and days, counted
from March. The last day of a span is missing where a year is no leap year.

* `dayNumber_civil` — the date of a day number has that number.
* `isValid_civil` — the date of a day number is one of the calendar.
* `year_civil_bounds` — the years that instants lie in.
-/

namespace Catalogue.Time

/-! ## Eras -/

/-- The parts of a day of an era. -/
structure EraParts (day : Nat) where
  century : Nat
  span : Nat
  year : Nat
  dayOfYear : Nat
  century_le : century ≤ 3
  span_le : span ≤ 24
  year_le : year ≤ 3
  dayOfYear_le : dayOfYear ≤ 365
  /-- Only leap years have a last day of February. -/
  leap : dayOfYear = 365 → year = 3 ∧ (span < 24 ∨ century = 3)
  day_eq : day = 36524 * century + 1461 * span + 365 * year + dayOfYear

/-- Every day of an era has parts. -/
theorem exists_eraParts {day : Nat} (h : day < 146097) : Nonempty (EraParts day) := by
  obtain ⟨c, s, hc, hs, hlast, rfl⟩ : ∃ c s, c ≤ 3 ∧ s ≤ 36524 ∧ (s = 36524 → c = 3) ∧
      day = 36524 * c + s := by
    refine ⟨min (day / 36524) 3, day - 36524 * min (day / 36524) 3, ?_⟩
    omega
  obtain ⟨q, t, hq, ht, hlast', rfl⟩ : ∃ q t, q ≤ 24 ∧ t ≤ 1460 ∧
      (t = 1460 → q < 24 ∨ s = 36524) ∧ s = 1461 * q + t := by
    refine ⟨s / 1461, s % 1461, ?_⟩
    omega
  obtain ⟨z, r, hz, hr, hlast'', rfl⟩ : ∃ z r, z ≤ 3 ∧ r ≤ 365 ∧
      (r = 365 → z = 3 ∧ t = 1460) ∧ t = 365 * z + r := by
    refine ⟨min (t / 365) 3, t - 365 * min (t / 365) 3, ?_⟩
    omega
  exact ⟨⟨c, q, z, r, hc, hq, hz, hr, by omega, by omega⟩⟩

namespace EraParts

variable {day : Nat} (p : EraParts day)

/-- The year of the era. -/
def yearOfEra : Nat := 100 * p.century + 4 * p.span + p.year

theorem yearOfEra_lt : p.yearOfEra < 400 := by
  have := p.century_le
  have := p.span_le
  have := p.year_le
  unfold yearOfEra
  omega

/-- The years are counted as if all had 365 days, less the days that are too many for that. -/
theorem yearOfEra_eq :
    (day - day / 1460 + day / 36524 - day / 146096) / 365 = p.yearOfEra := by
  obtain ⟨c, q, z, r, hc, hq, hz, hr, hleap, hday⟩ := p
  show _ = 100 * c + 4 * q + z
  have hcentury : day / 36524 - day / 146096 = c := by omega
  have hle : day / 146096 ≤ day / 36524 := by omega
  -- whether one more span would have passed without the leap days
  obtain ⟨k, hk, hk', hspan⟩ : ∃ k, k ≤ 1 ∧ (k = 1 ↔ 1460 ≤ 24 * c + q + 365 * z + r) ∧
      day / 1460 = 25 * c + q + k := by
    rcases Nat.lt_or_ge (24 * c + q + 365 * z + r) 1460 with h | h
    · exact ⟨0, by omega, by omega, by omega⟩
    · exact ⟨1, by omega, by omega, by omega⟩
  have hsum : day - day / 1460 + day / 36524 - day / 146096 =
      365 * (100 * c + 4 * q + z) + (r - k) := by
    clear hk'
    omega
  rw [hsum]
  omega

theorem daysBefore_eq :
    365 * p.yearOfEra + p.yearOfEra / 4 - p.yearOfEra / 100 + p.dayOfYear = day := by
  obtain ⟨c, q, z, r, hc, hq, hz, hr, hleap, hday⟩ := p
  show 365 * (100 * c + 4 * q + z) + (100 * c + 4 * q + z) / 4 - (100 * c + 4 * q + z) / 100 + r = _
  have : (100 * c + 4 * q + z) / 4 = 25 * c + q := by omega
  have : (100 * c + 4 * q + z) / 100 = c := by omega
  omega

/-- The year after one with 366 days, counted from March, is a leap year. -/
theorem isLeap_of_last (h : p.dayOfYear = 365) (era : Int) :
    isLeap (Int.ofNat p.yearOfEra + era * 400 + 1) = true := by
  obtain ⟨hyear, hspan⟩ := p.leap h
  have := p.century_le
  have := p.span_le
  simp only [isLeap, yearOfEra, hyear, Bool.and_eq_true, Bool.or_eq_true, beq_iff_eq, bne_iff_ne,
    Int.ofNat_eq_natCast]
  omega

end EraParts

/-! ## Months -/

/-- The month, counted from March as zero, of a day of the year. -/
def monthFromMarch (dayOfYear : Nat) : Nat := (5 * dayOfYear + 2) / 153

/-- The month of the calendar. -/
def calendarMonth (fromMarch : Nat) : Nat := if fromMarch < 10 then fromMarch + 3 else fromMarch - 9

theorem monthFromMarch_lt {r : Nat} (h : r ≤ 365) : monthFromMarch r < 12 := by
  unfold monthFromMarch
  omega

theorem daysBeforeMonth_le {r : Nat} : (153 * monthFromMarch r + 2) / 5 ≤ r := by
  unfold monthFromMarch
  omega

theorem calendarMonth_back {k : Nat} (h : k < 12) : (calendarMonth k + 9) % 12 = k := by
  unfold calendarMonth
  split <;> omega

/-- A day of a month is one that the month has. -/
theorem dayOfMonth_le {r : Nat} (h : r ≤ 365) (year : Int) (hleap : r = 365 → isLeap year = true) :
    r - (153 * monthFromMarch r + 2) / 5 + 1 ≤
      daysInMonth year (calendarMonth (monthFromMarch r)) := by
  generalize hk : monthFromMarch r = k
  unfold monthFromMarch at hk
  have hmonth : k = 0 ∨ k = 1 ∨ k = 2 ∨ k = 3 ∨ k = 4 ∨ k = 5 ∨ k = 6 ∨ k = 7 ∨ k = 8 ∨ k = 9 ∨
      k = 10 ∨ k = 11 := by omega
  rcases hmonth with rfl | rfl | rfl | rfl | rfl | rfl | rfl | rfl | rfl | rfl | rfl | rfl
  case inr.inr.inr.inr.inr.inr.inr.inr.inr.inr.inr =>
    -- February
    show r - 337 + 1 ≤ if isLeap year then 29 else 28
    split
    · omega
    · next hnot =>
      have : r ≠ 365 := fun h => hnot (hleap h)
      omega
  all_goals
    first
    | show _ ≤ 31; omega
    | show _ ≤ 30; omega

/-! ## Dates -/

/-- The date of a day, from its era and its parts. -/
theorem civil_eq (number : Int) : ∃ (era : Int) (day : Nat) (p : EraParts day),
    number = era * 146097 + day - 719468 ∧ civil number = {
      year :=
        if calendarMonth (monthFromMarch p.dayOfYear) ≤ 2 then
          Int.ofNat p.yearOfEra + era * 400 + 1
        else Int.ofNat p.yearOfEra + era * 400
      month := calendarMonth (monthFromMarch p.dayOfYear)
      day := p.dayOfYear - (153 * monthFromMarch p.dayOfYear + 2) / 5 + 1 } := by
  have hlt : ((number + 719468) % 146097).toNat < 146097 := by omega
  obtain ⟨p⟩ := exists_eraParts hlt
  refine ⟨(number + 719468) / 146097, _, p, by omega, ?_⟩
  have hdays := p.daysBefore_eq
  have hday : ((number + 719468) % 146097).toNat -
      (365 * p.yearOfEra + p.yearOfEra / 4 - p.yearOfEra / 100) = p.dayOfYear := by omega
  simp only [civil, p.yearOfEra_eq, hday]
  rfl

/-- The date of a day number has that number. -/
theorem dayNumber_civil (number : Int) : dayNumber (civil number) = number := by
  obtain ⟨era, day, p, hnumber, hcivil⟩ := civil_eq number
  have hmonth : (((civil number).month : Int) + 9) % 12 = monthFromMarch p.dayOfYear := by
    have := calendarMonth_back (monthFromMarch_lt p.dayOfYear_le)
    rw [hcivil]
    dsimp only
    omega
  have hyear : (if (civil number).month ≤ 2 then (civil number).year - 1
      else (civil number).year) = p.yearOfEra + era * 400 := by
    rw [hcivil]
    dsimp only
    split
    · rw [Int.add_sub_cancel]
      rfl
    · rfl
  have hday : ((civil number).day : Int) =
      p.dayOfYear - ((153 * monthFromMarch p.dayOfYear + 2) / 5 : Nat) + 1 := by
    have := daysBeforeMonth_le (r := p.dayOfYear)
    rw [hcivil]
    dsimp only
    omega
  have hdays := p.daysBefore_eq
  have hlt := p.yearOfEra_lt
  -- the year gives back its era and its place in the era
  have hera : (p.yearOfEra + era * 400 : Int) / 400 = era := by omega
  have hrest : (p.yearOfEra + era * 400 : Int) % 400 = p.yearOfEra := by omega
  rw [dayNumber, hyear, hera, hrest, hmonth, hday]
  omega

/-- The date of a day number is one of the calendar. -/
theorem isValid_civil (number : Int) : (civil number).isValid = true := by
  obtain ⟨era, day, p, -, hcivil⟩ := civil_eq number
  have hlt := monthFromMarch_lt p.dayOfYear_le
  have hmonth : 1 ≤ (civil number).month ∧ (civil number).month ≤ 12 := by
    rw [hcivil]
    unfold calendarMonth
    constructor <;> dsimp only <;> split <;> omega
  have hday : 1 ≤ (civil number).day ∧
      (civil number).day ≤ daysInMonth (civil number).year (civil number).month := by
    rw [hcivil]
    refine ⟨Nat.le_add_left 1 _, dayOfMonth_le p.dayOfYear_le _ fun hlast => ?_⟩
    have hfebruary : calendarMonth (monthFromMarch p.dayOfYear) ≤ 2 := by
      rw [hlast]
      decide
    rw [if_pos hfebruary]
    exact p.isLeap_of_last hlast era
  simp only [Date.isValid, Bool.and_eq_true, decide_eq_true_iff]
  exact ⟨⟨hmonth, hday.1⟩, hday.2⟩

/-- The years of the days that instants lie in. -/
theorem year_civil_bounds {number : Int} (h : firstDay ≤ number ∧ number ≤ lastDay) :
    -300000 ≤ (civil number).year ∧ (civil number).year ≤ 300000 := by
  obtain ⟨era, day, p, hnumber, hcivil⟩ := civil_eq number
  have hfirst : firstDay = -96465292 := by decide
  have hlast : lastDay = 95026236 := by decide
  have hdays := p.daysBefore_eq
  have hlt := p.yearOfEra_lt
  have := p.dayOfYear_le
  rw [hcivil, Int.ofNat_eq_natCast]
  dsimp only
  split <;> omega

end Catalogue.Time
