import Catalogue.Graph.Value
import Catalogue.Proofs.Number.Finite
import Catalogue.Proofs.Number.Order
import Catalogue.Proofs.Time.Instant

/-!
# Instants through timestamps

The seconds of a timestamp are one float, so the nanoseconds of an instant are divided, added,
subtracted and multiplied before they are an integer again. Each step rounds, but never by enough
to reach another nanosecond.

* `seconds_spec`, `not_seconds_lt_sixty` — the parts of the seconds, which are 60 or more inside a
  leap second.
* `Timestamp.instant?_ofInstant` — an instant comes back unless it lies inside a leap second.
* `Timestamp.isLeap_of_instant?` — no timestamp names an instant inside a leap second.
-/

namespace Catalogue.Graph

open Catalogue.Number
open Catalogue.Time

/-! ## Seconds -/

/-- The seconds of a timestamp. -/
def seconds (second nanos : Nat) : Float := second.toFloat + nanos.toFloat / 1e9

theorem denotes_billion : Denotes 1e9 (10 ^ 9) :=
  ⟨10 ^ 9 * 2 ^ 23, -23, ⟨by norm_num, by norm_num, by norm_num, by norm_num⟩, by rfl, by norm_num⟩

theorem denotes_sixty : Denotes 60.0 60 :=
  ⟨60 * 2 ^ 47, -47, ⟨by norm_num, by norm_num, by norm_num, by norm_num⟩, by rfl, by norm_num⟩

theorem zero_add_of_denotes {y : Float} {w : ℚ} (hy : Denotes y w) : Nat.toFloat 0 + y = y := by
  obtain ⟨m, e, h, rfl, -⟩ := hy
  have hzero : (Nat.toFloat 0).toModel.unpack = .zero .positive := by rfl
  show Float.ofModel (.pack (Float.Model.UnpackedFloat.add _ (Nat.toFloat 0).toModel.unpack
    (normal m e h.pos).toModel.unpack)) = _
  rw [hzero, unpack_normal h]
  rfl

theorem sub_zero_of_denotes {y : Float} {w : ℚ} (hy : Denotes y w) : y - Nat.toFloat 0 = y := by
  obtain ⟨m, e, h, rfl, -⟩ := hy
  have hzero : (Nat.toFloat 0).toModel.unpack = .zero .positive := by rfl
  show Float.ofModel (.pack (Float.Model.UnpackedFloat.sub _ (normal m e h.pos).toModel.unpack
    (Nat.toFloat 0).toModel.unpack)) = _
  rw [hzero, unpack_normal h]
  rfl

section Nanos

variable {s n : ℕ}

/-- The nanoseconds as a part of a second. -/
theorem denotes_nanos (hn : 0 < n) (hlt : n < 2 * 10 ^ 9) :
    ∃ q, Denotes (n.toFloat / 1e9) q ∧ RoundsTo (n / 10 ^ 9) q := by
  have hn' : (1 : ℚ) ≤ n := by exact_mod_cast hn
  have hlt' : (n : ℚ) < 2 * 10 ^ 9 := by exact_mod_cast hlt
  refine (denotes_toFloat hn (by omega)).div denotes_billion (inRange_of_bounds ?_ ?_)
  · rw [le_div_iff₀ (by norm_num)]
    norm_num
    linarith
  · rw [div_le_iff₀ (by norm_num)]
    norm_num
    linarith

/-- The seconds with the nanoseconds, and how far they are from the exact sum. -/
theorem denotes_seconds (hs : s < 60) (hn : 0 < n) (hlt : n < 2 * 10 ^ 9) :
    ∃ q v, RoundsTo (n / 10 ^ 9) q ∧ Denotes (seconds s n) v ∧
      (v = q ∧ s = 0 ∨ RoundsTo (s + q) v) ∧ |v - (s + n / 10 ^ 9)| ≤ 1 / 2 ^ 45 := by
  obtain ⟨q, hq, hround⟩ := denotes_nanos hn hlt
  have hpos := hq.pos
  have hlt' : (n : ℚ) / 10 ^ 9 < 2 := by
    rw [div_lt_iff₀ (by norm_num)]
    exact_mod_cast hlt
  -- the quotient is off by less than `2 ^ -51`, and the sum adds less than `2 ^ -46` to that
  obtain ⟨hbelow, habove⟩ := abs_le.mp hround.abs_sub_le
  have hs' : (s : ℚ) ≤ 59 := by exact_mod_cast Nat.le_of_lt_succ hs
  rcases Nat.eq_zero_or_pos s with rfl | hspos
  · refine ⟨q, q, hround, ?_, .inl ⟨rfl, rfl⟩, ?_⟩
    · rwa [seconds, zero_add_of_denotes hq]
    · rw [abs_le]
      constructor <;> norm_num at hbelow habove ⊢ <;> linarith
  · have hspos' : (1 : ℚ) ≤ s := by exact_mod_cast hspos
    have hle : s + q ≤ 62 := by
      norm_num at habove
      linarith
    obtain ⟨v, hv, hsum⟩ := (denotes_toFloat hspos (by omega)).add hq
      (inRange_of_bounds (by norm_num; linarith) (by norm_num; linarith))
    obtain ⟨hbelow', habove'⟩ := abs_le.mp hsum.abs_sub_le
    refine ⟨q, v, hround, hv, .inr hsum, ?_⟩
    rw [abs_le]
    constructor <;> norm_num at hbelow habove hbelow' habove' ⊢ <;> linarith

theorem wholePart_seconds (hs : s < 60) (hn : 0 < n) (hlt : n < 10 ^ 9) :
    wholePart (seconds s n) = s := by
  obtain ⟨q, v, -, hv, -, hnear⟩ := denotes_seconds hs hn (by omega)
  obtain ⟨hbelow, habove⟩ := abs_le.mp hnear
  have hn' : (1 : ℚ) ≤ n := by exact_mod_cast hn
  have hlt' : (n : ℚ) + 1 ≤ 10 ^ 9 := by exact_mod_cast hlt
  norm_num at hbelow habove hlt'
  exact hv.wholePart_eq (by linarith) (by linarith)

/-- The nanoseconds come back. -/
theorem fractionNanos_seconds (hs : s < 60) (hn : 0 < n) (hlt : n < 10 ^ 9) :
    Timestamp.fractionNanos (seconds s n) = n := by
  obtain ⟨q, v, hq, hv, hsum, hnear⟩ := denotes_seconds hs hn (by omega)
  have hn' : (1 : ℚ) ≤ n := by exact_mod_cast hn
  have hlt' : (n : ℚ) + 1 ≤ 10 ^ 9 := by exact_mod_cast hlt
  obtain ⟨hbelow, habove⟩ := abs_le.mp hnear
  norm_num at hbelow habove hlt'
  -- what is left without the whole seconds
  obtain ⟨d, hd, hd'⟩ : ∃ d, Denotes (seconds s n - s.toFloat) d ∧
      |d - n / 10 ^ 9| ≤ 1 / 2 ^ 44 := by
    rcases Nat.eq_zero_or_pos s with rfl | hspos
    · rw [sub_zero_of_denotes hv]
      refine ⟨v, hv, ?_⟩
      rw [abs_le]
      norm_num
      constructor <;> linarith
    · obtain ⟨d, hd, hround⟩ := hv.sub (denotes_toFloat hspos (by omega))
        (inRange_of_bounds (by norm_num; linarith) (by norm_num; linarith))
      obtain ⟨hbelow', habove'⟩ := abs_le.mp hround.abs_sub_le
      refine ⟨d, hd, ?_⟩
      rw [abs_le]
      norm_num at hbelow' habove' ⊢
      constructor <;> linarith
  obtain ⟨hbelow', habove'⟩ := abs_le.mp hd'
  norm_num at hbelow' habove'
  -- the product magnifies the error to less than one half
  obtain ⟨y, hy, hround⟩ := hd.mul denotes_billion
    (inRange_of_bounds (by norm_num; linarith) (by norm_num; linarith))
  have hnear' : |y - n| < 1 / 2 := by
    obtain ⟨hbelow'', habove''⟩ := abs_le.mp hround.abs_sub_le
    rw [abs_lt]
    norm_num at hbelow'' habove'' ⊢
    constructor <;> linarith
  rw [Timestamp.fractionNanos, wholePart_seconds hs hn hlt, hy.roundedMagnitude_eq hnear']
  omega

theorem seconds_lt_sixty (hs : s < 60) (hn : 0 < n) (hlt : n < 10 ^ 9) : seconds s n < 60.0 := by
  obtain ⟨q, v, -, hv, -, hnear⟩ := denotes_seconds hs hn (by omega)
  obtain ⟨hbelow, habove⟩ := abs_le.mp hnear
  have hlt' : (n : ℚ) + 1 ≤ 10 ^ 9 := by exact_mod_cast hlt
  have hs' : (s : ℚ) ≤ 59 := by exact_mod_cast Nat.le_of_lt_succ hs
  norm_num at hbelow habove hlt'
  rw [hv.lt_iff denotes_sixty]
  linarith

/-- Inside a leap second the seconds are 60 or more. -/
theorem not_seconds_lt_sixty (hle : 10 ^ 9 ≤ n) (hlt : n < 2 * 10 ^ 9) :
    ¬ seconds 59 n < 60.0 := by
  obtain ⟨q, v, hq, hv, hsum, -⟩ := denotes_seconds (s := 59) (by norm_num) (by omega) hlt
  have hsum' : RoundsTo ((59 : ℕ) + q) v := hsum.resolve_left fun h => absurd h.2 (by norm_num)
  have hle' : (1000000000 : ℚ) ≤ n := by exact_mod_cast hle
  have hlt' : (n : ℚ) < 2000000000 := by exact_mod_cast hlt
  -- neither step rounds below an integer
  have hone : (1 : ℚ) ≤ q := by
    have := hq.multiple_le (j := 2 ^ 52) (t := -52) (by norm_num; linarith) (by norm_num; linarith)
    norm_num at this
    exact this
  have hsixty : (60 : ℚ) ≤ v := by
    obtain ⟨-, habove⟩ := abs_le.mp hq.abs_sub_le
    norm_num at habove
    have := hsum'.multiple_le (j := 60 * 2 ^ 47) (t := -47) (by norm_num; linarith)
      (by norm_num; linarith)
    norm_num at this
    exact this
  rw [hv.lt_iff denotes_sixty]
  exact not_lt.mpr hsixty

end Nanos

/-- Whole seconds are exact. -/
theorem whole_seconds : ∀ s < 60, (seconds s 0).isFinite = true ∧ 0.0 ≤ seconds s 0 ∧
    seconds s 0 < 60.0 ∧ wholePart (seconds s 0) = s ∧
    Timestamp.fractionNanos (seconds s 0) = 0 := by
  decide +kernel

/-- The seconds name a second and nanoseconds unless they lie inside a leap second. -/
theorem seconds_spec {s n : ℕ} (hs : s < 60) (hlt : n < 10 ^ 9) :
    (seconds s n).isFinite = true ∧ 0.0 ≤ seconds s n ∧ seconds s n < 60.0 ∧
      wholePart (seconds s n) = s ∧ Timestamp.fractionNanos (seconds s n) = n := by
  rcases Nat.eq_zero_or_pos n with rfl | hn
  · exact whole_seconds s hs
  · obtain ⟨q, v, -, hv, -, -⟩ := denotes_seconds hs hn (by omega)
    exact ⟨hv.isFinite, hv.zero_le, seconds_lt_sixty hs hn hlt, wholePart_seconds hs hn hlt,
      fractionNanos_seconds hs hn hlt⟩

/-- The part before the point of a number of seconds that fits a minute. -/
theorem wholePart_lt_sixty {x : Float} (hfinite : x.isFinite = true) (hle : 0.0 ≤ x)
    (hlt : x < 60.0) : wholePart x < 60 := by
  obtain ⟨m, e, hform, hm, -, -⟩ := form_of_isFinite hfinite
  have hle' : (Float.Model.UnpackedFloat.zero .positive).le x.toModel.unpack = true :=
    of_decide_eq_true hle
  have hsixty : (60.0 : Float).toModel.unpack =
      .finite .positive (60 * 2 ^ 47) (-47) (by norm_num) := by rfl
  rw [wholePart, hform]
  rw [form_eq_magnitude] at hform
  rw [lt_iff_compare, hsixty] at hlt
  cases hunpack : x.toModel.unpack with
  | notANumber => rw [hunpack] at hform; cases hform
  | infinity s => rw [hunpack] at hform; cases hform
  | zero s =>
    rw [hunpack] at hform
    cases hform
    simp
  | finite s m' e' hm' =>
    rw [hunpack] at hform hlt hle'
    cases hform
    cases s with
    | negative => cases hle'
    | positive =>
      have hthen : (compare e (-47)).then (compare m (60 * 2 ^ 47)) = .lt := Option.some.inj hlt
      show (if 0 ≤ e then m <<< e.toNat else m >>> (-e).toNat) < 60
      rw [Ordering.then_eq_lt, Int.compare_eq_lt, Int.compare_eq_eq, Nat.compare_eq_lt] at hthen
      rw [if_neg (by omega), Nat.shiftRight_eq_div_pow, Nat.div_lt_iff_lt_mul (by positivity)]
      -- a smaller exponent leaves fewer bits before the point
      rcases hthen with hless | ⟨rfl, hless⟩
      · have hpow : 2 ^ 48 ≤ 2 ^ (-e).toNat := Nat.pow_le_pow_right (by norm_num) (by omega)
        omega
      · exact hless

/-! ## Instants -/

/-- The fields of a timestamp hold the date of an instant. -/
theorem date_ofInstant (t : Instant) :
    (⟨(Timestamp.ofInstant t).year.toInt, (Timestamp.ofInstant t).month.toNat,
      (Timestamp.ofInstant t).day.toNat⟩ : Date) = t.date := by
  have hyear := year_civil_bounds t.day_mem
  have hbounds := civil_bounds t.day
  -- no part is cut off by its fixed width
  have hy : (Int32.ofInt (civil t.day).year).toInt = (civil t.day).year :=
    Int32.toInt_ofInt_of_le (by omega) (by omega)
  have hm : (UInt32.ofNat (civil t.day).month).toNat = (civil t.day).month :=
    UInt32.toNat_ofNat_of_lt' (by show _ < 2 ^ 32; omega)
  have hd : (UInt32.ofNat (civil t.day).day).toNat = (civil t.day).day :=
    UInt32.toNat_ofNat_of_lt' (by show _ < 2 ^ 32; omega)
  simp only [Timestamp.ofInstant, Instant.date, hy, hm, hd]

/-- An instant comes back unless it lies inside a leap second. -/
theorem Timestamp.instant?_ofInstant (t : Instant) :
    (Timestamp.ofInstant t).instant? = if t.isLeap then none else some t := by
  have hsecond : (Timestamp.ofInstant t).second = seconds t.secondOfMinute t.nanos := rfl
  have hsixty := t.secondOfMinute_lt
  -- inside a leap second the seconds are 60 or more, which name no second
  by_cases hleap : 1000000000 ≤ t.nanos
  · have hlast : t.secondOfMinute = 59 := t.leap_second hleap
    have hnot : decide (seconds t.secondOfMinute t.nanos < 60.0) = false := by
      rw [hlast, decide_eq_false_iff_not]
      exact not_seconds_lt_sixty hleap t.nanos_lt
    rw [Timestamp.instant?, hsecond, hnot, Bool.and_false, if_neg Bool.false_ne_true,
      Instant.isLeap, if_pos (decide_eq_true hleap)]
  · obtain ⟨hfinite, hzero, hlt, hwhole, hnanos⟩ :=
      seconds_spec hsixty (n := t.nanos) (by omega)
    have hhour : (Timestamp.ofInstant t).hour.toNat = t.hour :=
      UInt32.toNat_ofNat_of_lt' (t.hour_lt.trans (by decide))
    have hminute : (Timestamp.ofInstant t).minute.toNat = t.minute :=
      UInt32.toNat_ofNat_of_lt' (t.minute_lt.trans (by decide))
    have hcond : ((seconds t.secondOfMinute t.nanos).isFinite &&
        decide (0.0 ≤ seconds t.secondOfMinute t.nanos) &&
        decide (seconds t.secondOfMinute t.nanos < 60.0)) = true := by
      rw [hfinite, decide_eq_true hzero, decide_eq_true hlt]
      rfl
    rw [Timestamp.instant?, hsecond, if_pos hcond, date_ofInstant, hhour, hminute, hwhole, hnanos,
      t.ofParts?_self (by omega), Instant.isLeap, if_neg (by rwa [decide_eq_true_iff])]

/-- An instant in second 59 or before has the nanoseconds of its parts. -/
theorem nanos_of_ofParts? {date : Date} {hour minute second nanos : ℕ} {t : Instant}
    (h : Instant.ofParts? date hour minute second nanos = some t) (hsecond : second < 60) :
    t.nanos = nanos := by
  have hbeq : (second == 60) = false := beq_eq_false_iff_ne.mpr (by omega)
  unfold Instant.ofParts? at h
  rw [hbeq, if_neg Bool.false_ne_true] at h
  unfold Instant.make? at h
  split at h
  · split at h
    · obtain rfl := Option.some.inj h
      rfl
    · cases h
  · cases h

/-- No timestamp names an instant inside a leap second. -/
theorem Timestamp.isLeap_of_instant? {s : Timestamp} {t : Instant} (h : s.instant? = some t) :
    t.isLeap = false := by
  unfold Timestamp.instant? at h
  split at h
  · next hcond =>
    rw [Bool.and_eq_true, Bool.and_eq_true, decide_eq_true_iff, decide_eq_true_iff] at hcond
    obtain ⟨⟨hfinite, hle⟩, hlt⟩ := hcond
    have hnanos := nanos_of_ofParts? h (wholePart_lt_sixty hfinite hle hlt)
    have hmin : Timestamp.fractionNanos s.second ≤ 999999999 := Nat.min_le_right _ _
    rw [Instant.isLeap, decide_eq_false_iff_not]
    omega
  · cases h

end Catalogue.Graph
