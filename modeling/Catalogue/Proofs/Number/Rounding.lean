import Catalogue.Number.Binary
import Mathlib

/-!
# Rounding of binary64 arithmetic

Sums, differences, products and quotients of positive floats, as rational numbers. A result lies
between the two neighbours of the exact value, and is the exact value when that is a float.

* `Denotes` — a positive float and its value.
* `RoundsTo` — a value and what it is rounded to.
* `Denotes.add`, `Denotes.sub`, `Denotes.mul`, `Denotes.div` — the four operations.
-/

namespace Catalogue.Number

open Float.Model Float.Model.UnpackedFloat

/-! ## Positive floats -/

/-- The mantissa and the exponent of a float that is not too small for all its bits. -/
structure IsNormal (m : Nat) (e : Int) : Prop where
  le_mantissa : 2 ^ 52 ≤ m
  mantissa_lt : m < 2 ^ 53
  le_exponent : -1074 ≤ e
  exponent_le : e ≤ 971

theorem IsNormal.pos {m : Nat} {e : Int} (h : IsNormal m e) : 0 < m :=
  Nat.lt_of_lt_of_le (by decide) h.le_mantissa

theorem IsNormal.log2 {m : Nat} {e : Int} (h : IsNormal m e) : m.log2 = 52 :=
  (Nat.log2_eq_iff (Nat.ne_of_gt h.pos)).mpr ⟨h.le_mantissa, h.mantissa_lt⟩

/-- The float of a mantissa and an exponent. -/
def normal (m : Nat) (e : Int) (h : 0 < m) : Float := .ofModel (.pack (.finite .positive m e h))

section Normal

variable {m : Nat} {e : Int}

/-- The bits of a float are its exponent and its mantissa without the highest bit. -/
theorem pack_normal (s : Sign) (h : IsNormal m e) :
    UnpackedFloat.pack Format.binary64 (.finite s m e h.pos) =
      packComponents Format.binary64 s (BitVec.ofNat 11 (e + 1075).toNat)
        (BitVec.ofNat 52 m) := by
  have hbias :
      (e + (Format.binary64.exponentBias : Nat) + (52 : Nat)).toNat = (e + 1075).toNat := by
    have : (Format.binary64.exponentBias : Int) = 1023 := by decide
    omega
  have := h.le_exponent
  have := h.exponent_le
  rw [UnpackedFloat.pack]
  simp only [hbias]
  rw [if_neg (by show ¬ 2 ^ 11 ≤ _; omega), if_pos (by rw [h.log2]; rfl)]

theorem toNat_packComponents (exponent : BitVec 11) (mantissa : BitVec 52) :
    (packComponents Format.binary64 .positive exponent mantissa).toNat =
      exponent.toNat * 2 ^ 52 + mantissa.toNat := by
  rw [packComponents, BitVec.toNat_append, ← Nat.shiftLeft_add_eq_or_of_lt mantissa.isLt,
    BitVec.toNat_append, ← Nat.shiftLeft_add_eq_or_of_lt exponent.isLt, Nat.shiftLeft_eq,
    Nat.shiftLeft_eq]
  show (0 * 2 ^ 11 + exponent.toNat) * 2 ^ 52 + _ = _
  rw [Nat.zero_mul, Nat.zero_add]

theorem toNat_toBits_normal (h : IsNormal m e) :
    (normal m e h.pos).toBits.toNat = (e + 1075).toNat * 2 ^ 52 + (m - 2 ^ 52) := by
  have hbits : (normal m e h.pos).toBits =
      UInt64.ofBitVec (UnpackedFloat.pack Format.binary64 (.finite .positive m e h.pos)) := rfl
  have := h.le_exponent
  have := h.exponent_le
  have := h.le_mantissa
  have := h.mantissa_lt
  rw [hbits, pack_normal _ h]
  show (packComponents Format.binary64 .positive _ _).toNat = _
  rw [toNat_packComponents, BitVec.toNat_ofNat, BitVec.toNat_ofNat]
  omega

/-- A float is read as its mantissa and its exponent. -/
theorem form_normal (h : IsNormal m e) : form (normal m e h.pos) = .finite m e := by
  have := h.le_exponent
  have := h.exponent_le
  have := h.le_mantissa
  have := h.mantissa_lt
  have hbiased : (normal m e h.pos).toBits.toNat / 0x10000000000000 % 0x800 =
      (e + 1075).toNat := by
    rw [toNat_toBits_normal h]
    omega
  have hfraction : (normal m e h.pos).toBits.toNat % 0x10000000000000 = m - 2 ^ 52 := by
    rw [toNat_toBits_normal h]
    omega
  simp only [form, hbiased, hfraction, beq_iff_eq]
  rw [if_neg (by omega), if_neg (by omega)]
  congr 1
  · omega
  · show ((e + 1075).toNat : Int) - 1075 = e
    omega

/-- The parts of a float are those that were packed. -/
theorem unpack_pack (s : Sign) (h : IsNormal m e) :
    UnpackedFloat.unpack Format.binary64 (UnpackedFloat.pack Format.binary64
      (.finite s m e h.pos)) = .finite s m e h.pos := by
  have := h.le_exponent
  have := h.exponent_le
  have := h.le_mantissa
  have := h.mantissa_lt
  have hexponent : (BitVec.ofNat 11 (e + 1075).toNat).toNat = (e + 1075).toNat := by
    rw [BitVec.toNat_ofNat]
    omega
  -- the exponent field is neither all ones nor all zeros
  have hones : BitVec.ofNat 11 (e + 1075).toNat ≠ -1#11 := by
    intro heq
    have := congrArg BitVec.toNat heq
    rw [hexponent] at this
    change (e + 1075).toNat = 2047 at this
    omega
  have hzero : BitVec.ofNat 11 (e + 1075).toNat ≠ 0#11 := by
    intro heq
    have := congrArg BitVec.toNat heq
    rw [hexponent] at this
    change (e + 1075).toNat = 0 at this
    omega
  have hsign : Sign.ofBitVec (unpackSign (packComponents Format.binary64 s
      (BitVec.ofNat 11 (e + 1075).toNat) (BitVec.ofNat 52 m))) = s := by
    rw [unpackSign_packComponents]
    cases s <;> rfl
  have hmantissa : (1#1 ++ BitVec.ofNat 52 m).toNat = m := by
    rw [BitVec.toNat_append, ← Nat.shiftLeft_add_eq_or_of_lt (BitVec.isLt _), Nat.shiftLeft_eq]
    show 1 * 2 ^ 52 + m % 2 ^ 52 = m
    omega
  rw [pack_normal s h, UnpackedFloat.unpack]
  simp only [unpackMantissa_packComponents, unpackExponent_packComponents]
  rw [if_neg hones, if_neg hzero, hsign]
  simp only [hexponent, hmantissa]
  congr 1
  show ((e + 1075).toNat : Int) - 1075 = e
  omega

theorem unpack_normal (h : IsNormal m e) :
    (normal m e h.pos).toModel.unpack = .finite .positive m e h.pos :=
  unpack_pack .positive h

end Normal

/-- A float is positive, not too small for all its bits, and has that value. -/
def Denotes (x : Float) (v : ℚ) : Prop :=
  ∃ m e, ∃ h : IsNormal m e, x = normal m e h.pos ∧ v = m * 2 ^ e

/-! ## Rounding of a mantissa -/

theorem shiftRight_mantissa (em : ExtendedMantissa) (k : Nat) :
    (em >>> k).mantissa = em.mantissa / 2 ^ k := by
  induction k with
  | zero => exact (Nat.div_one _).symm
  | succ k ih =>
    show (em >>> k).mantissa / 2 = _
    rw [ih, Nat.div_div_eq_div_mul, Nat.pow_succ]

/-- Zeros are shifted out without a trace. -/
theorem shiftRight_exact {m k : Nat} (h : 2 ^ k ∣ m) :
    ExtendedMantissa.mk m false false >>> k = ⟨m / 2 ^ k, false, false⟩ := by
  induction k with
  | zero => rw [Nat.pow_zero, Nat.div_one]; rfl
  | succ k ih =>
    have heven : m / 2 ^ k % 2 = 0 := by
      obtain ⟨c, rfl⟩ := h
      rw [Nat.pow_succ, Nat.mul_assoc, Nat.mul_div_cancel_left _ (Nat.two_pow_pos k)]
      exact Nat.mul_mod_right 2 c
    show (ExtendedMantissa.mk m false false >>> k).shiftRightOne = _
    rw [ih (Nat.dvd_trans (Nat.pow_dvd_pow 2 (Nat.le_succ k)) h), ExtendedMantissa.shiftRightOne]
    simp [heven, Nat.div_div_eq_div_mul, Nat.pow_succ]

theorem le_roundedMantissa (em : ExtendedMantissa) : em.mantissa ≤ em.roundedMantissa := by
  obtain ⟨m, r, s⟩ := em
  cases r <;> cases s <;>
    simp [ExtendedMantissa.roundedMantissa, ExtendedMantissa.accuracy, Accuracy.roundToNearestEven]

theorem roundedMantissa_le (em : ExtendedMantissa) : em.roundedMantissa ≤ em.mantissa + 1 := by
  obtain ⟨m, r, s⟩ := em
  cases r <;> cases s <;>
    simp [ExtendedMantissa.roundedMantissa, ExtendedMantissa.accuracy, Accuracy.roundToNearestEven]
  omega

theorem mantissa_ofMantissaAndAccuracy (m : Nat) (acc : Accuracy) :
    (ExtendedMantissa.ofMantissaAndAccuracy m acc).mantissa = m := by
  rcases acc with _ | (_ | _ | _) <;> rfl

theorem targetExponent_eq (m : Nat) (e : Int) :
    Format.binary64.targetExponent (totalExponent m e) = max (e + m.log2 - 52) (-1074) := by
  simp only [Format.targetExponent, totalExponent, Format.mantissaBits, Format.minExponent]
  norm_num
  omega

/-- A mantissa with more bits than are kept loses the lowest ones. -/
theorem shiftToTargetExponent_eq {m : Nat} {e : Int} (acc : Accuracy) (hm : 52 ≤ m.log2)
    (hlow : -1074 ≤ e + m.log2 - 52) :
    shiftToTargetExponent Format.binary64 m e acc =
      (ExtendedMantissa.ofMantissaAndAccuracy m acc >>> (m.log2 - 52), e + m.log2 - 52) := by
  rw [shiftToTargetExponent, targetExponent_eq, shiftToExponent]
  have hshift : (max (e + m.log2 - 52) (-1074) - e).toNat = m.log2 - 52 := by omega
  simp only [hshift]
  congr 1
  omega

/-- A rounded mantissa is kept, or has one bit too many and loses a zero. -/
theorem exists_normal_of_rounded {r : Nat} {e : Int} (hlow : 2 ^ 52 ≤ r) (hhigh : r ≤ 2 ^ 53)
    (he : -1074 ≤ e) (he' : e ≤ 970) :
    ∃ m e', IsNormal m e' ∧ (m : ℚ) * 2 ^ e' = r * 2 ^ e ∧ (r % 2 = 0 → m % 2 = 0) ∧
      (shiftToTargetExponent Format.binary64 r e .exact).1.mantissa = m ∧
      (shiftToTargetExponent Format.binary64 r e .exact).2 = e' := by
  -- only `2 ^ 53` itself has a bit too many
  rcases Nat.lt_or_ge r (2 ^ 53) with hlt | hge
  · have hlog : r.log2 = 52 := (Nat.log2_eq_iff (by omega)).mpr ⟨hlow, hlt⟩
    have hshift := shiftToTargetExponent_eq (e := e) .exact (by omega)
      (by omega : _ ≤ e + r.log2 - 52)
    refine ⟨r, e, ⟨hlow, hlt, he, by omega⟩, rfl, id, ?_, ?_⟩
    · rw [hshift, shiftRight_mantissa, mantissa_ofMantissaAndAccuracy, hlog]
      exact Nat.div_one r
    · rw [hshift, hlog]
      show e + 52 - 52 = e
      omega
  · have hr : r = 2 ^ 53 := by omega
    subst hr
    have hlog : (2 ^ 53 : Nat).log2 = 53 := Nat.log2_two_pow
    have hshift := shiftToTargetExponent_eq (m := 2 ^ 53) (e := e) .exact (by omega) (by omega)
    refine ⟨2 ^ 52, e + 1, ⟨by norm_num, by norm_num, by omega, by omega⟩, ?_, fun _ => rfl, ?_, ?_⟩
    · rw [zpow_add₀ (by norm_num)]
      push_cast
      ring
    · rw [hshift, shiftRight_mantissa, mantissa_ofMantissaAndAccuracy, hlog]
      rfl
    · rw [hshift, hlog]
      show e + 53 - 52 = e + 1
      omega

/-- What is kept of a mantissa has as many bits as a float has. -/
theorem kept_bounds {m : Nat} (hm : 52 ≤ m.log2) :
    2 ^ 52 ≤ m / 2 ^ (m.log2 - 52) ∧ m / 2 ^ (m.log2 - 52) < 2 ^ 53 := by
  have hne : m ≠ 0 := by
    rintro rfl
    simp at hm
  have hpow : 2 ^ m.log2 = 2 ^ 52 * 2 ^ (m.log2 - 52) := by
    rw [← Nat.pow_add]
    congr 1
    omega
  constructor
  · rw [Nat.le_div_iff_mul_le (Nat.two_pow_pos _), ← hpow]
    exact Nat.log2_self_le hne
  · rw [Nat.div_lt_iff_lt_mul (Nat.two_pow_pos _)]
    have := Nat.lt_log2_self (n := m)
    rw [Nat.pow_succ, hpow] at this
    omega

/-- A mantissa with its accuracy, without the bits that are not kept. -/
def kept (m : Nat) (acc : Accuracy) : ExtendedMantissa :=
  ExtendedMantissa.ofMantissaAndAccuracy m acc >>> (m.log2 - 52)

theorem mantissa_kept (m : Nat) (acc : Accuracy) :
    (kept m acc).mantissa = m / 2 ^ (m.log2 - 52) := by
  rw [kept, shiftRight_mantissa, mantissa_ofMantissaAndAccuracy]

/-- A mantissa of enough bits becomes what is kept of it, rounded. -/
theorem roundWithAccuracy_eq {m : Nat} {e : Int} (acc : Accuracy) (hm : 52 ≤ m.log2)
    (hlow : -1074 ≤ e + m.log2 - 52) (hhigh : e + m.log2 - 52 ≤ 970) :
    ∃ m' e', ∃ h : IsNormal m' e',
      (m' : ℚ) * 2 ^ e' = (kept m acc).roundedMantissa * 2 ^ (e + m.log2 - 52) ∧
      ((kept m acc).roundedMantissa % 2 = 0 → m' % 2 = 0) ∧
      roundWithAccuracy Format.binary64 .positive m e acc = .finite .positive m' e' h.pos := by
  obtain ⟨hbelow, habove⟩ := kept_bounds hm
  have hle := le_roundedMantissa (kept m acc)
  have hge := roundedMantissa_le (kept m acc)
  rw [mantissa_kept] at hle hge
  obtain ⟨m', e', hnormal, hvalue, heven, hm', he'⟩ :=
    exists_normal_of_rounded (r := (kept m acc).roundedMantissa) (e := e + m.log2 - 52)
      (by omega) (by omega) hlow hhigh
  have hfirst : shiftToTargetExponent Format.binary64 m e acc = (kept m acc, e + m.log2 - 52) :=
    shiftToTargetExponent_eq acc hm hlow
  refine ⟨m', e', hnormal, hvalue, heven, ?_⟩
  rw [roundWithAccuracy, hfirst]
  simp only [hm', he']
  rw [dif_neg (Nat.ne_of_gt hnormal.pos)]

/-- A mantissa of enough bits is rounded to one of the two next to it. -/
theorem exists_roundWithAccuracy {m : Nat} {e : Int} (acc : Accuracy) (hm : 52 ≤ m.log2)
    (hlow : -1074 ≤ e + m.log2 - 52) (hhigh : e + m.log2 - 52 ≤ 970) :
    ∃ r : Nat, m / 2 ^ (m.log2 - 52) ≤ r ∧ r ≤ m / 2 ^ (m.log2 - 52) + 1 ∧
      (acc = .exact → 2 ^ (m.log2 - 52) ∣ m → r = m / 2 ^ (m.log2 - 52)) ∧
      ∃ m' e', ∃ h : IsNormal m' e', (m' : ℚ) * 2 ^ e' = r * 2 ^ (e + m.log2 - 52) ∧
        roundWithAccuracy Format.binary64 .positive m e acc = .finite .positive m' e' h.pos := by
  obtain ⟨m', e', hnormal, hvalue, -, hround⟩ := roundWithAccuracy_eq acc hm hlow hhigh
  have hle := le_roundedMantissa (kept m acc)
  have hge := roundedMantissa_le (kept m acc)
  rw [mantissa_kept] at hle hge
  refine ⟨(kept m acc).roundedMantissa, hle, hge, ?_, m', e', hnormal, hvalue, hround⟩
  rintro rfl hdvd
  show ExtendedMantissa.roundedMantissa (ExtendedMantissa.mk m false false >>> _) = _
  rw [shiftRight_exact hdvd]
  rfl

/-! ## Rounding of a value -/

/-- The second value is one of the two floats around the first, and is the first if that is one. -/
def RoundsTo (v q : ℚ) : Prop :=
  ∃ (m : ℕ) (e : ℤ), 2 ^ 52 ≤ m ∧ m < 2 ^ 53 ∧ (m : ℚ) * 2 ^ e ≤ v ∧ v < (m + 1) * 2 ^ e ∧
    m * 2 ^ e ≤ q ∧ q ≤ (m + 1) * 2 ^ e ∧ (v = m * 2 ^ e → q = v)

/-- A value is far from both ends of the range of floats. -/
def InRange (v : ℚ) : Prop := (2 : ℚ) ^ (-1000 : ℤ) ≤ v ∧ v ≤ 2 ^ (1000 : ℤ)

theorem two_zpow_pos (e : ℤ) : (0 : ℚ) < 2 ^ e := zpow_pos (by norm_num) e

namespace RoundsTo

variable {v q : ℚ}

/-- Rounding changes a value by less than one part in `2 ^ 52`. -/
theorem abs_sub_le (h : RoundsTo v q) : |q - v| ≤ v / 2 ^ 52 := by
  obtain ⟨m, e, hm, -, hle, hlt, hle', hge', -⟩ := h
  have hm' : (2 : ℚ) ^ 52 ≤ m := by exact_mod_cast hm
  have hunit : (2 : ℚ) ^ e ≤ v / 2 ^ 52 := by
    rw [le_div_iff₀ (by norm_num)]
    nlinarith [two_zpow_pos e]
  rw [abs_le]
  constructor <;> linarith

/-- The unit of the last bit is at most the one that has room for the value. -/
theorem exists_unit (h : RoundsTo v q) {t : ℤ} (ht : v < 2 ^ (t + 53)) :
    ∃ (m : ℕ) (e : ℤ) (k : ℕ), t = e + k ∧ (m : ℚ) * 2 ^ e ≤ v ∧ v < (m + 1) * 2 ^ e ∧
      m * 2 ^ e ≤ q ∧ (v = m * 2 ^ e → q = v) := by
  obtain ⟨m, e, hm, -, hle, hlt, hle', -, hexact⟩ := h
  have hm' : (2 : ℚ) ^ (52 : ℤ) ≤ m := by exact_mod_cast hm
  have hpow : (2 : ℚ) ^ (52 + e) < 2 ^ (t + 53) := by
    rw [zpow_add₀ (by norm_num)]
    nlinarith [two_zpow_pos e]
  have he := (zpow_lt_zpow_iff_right₀ (by norm_num : (1 : ℚ) < 2)).mp hpow
  exact ⟨m, e, (t - e).toNat, by omega, hle, hlt, hle', hexact⟩

/-- A multiple of a unit in terms of a smaller one. -/
theorem mul_zpow_add (j : ℕ) (e : ℤ) (k : ℕ) :
    (j : ℚ) * 2 ^ (e + k) = (j * 2 ^ k : ℕ) * 2 ^ e := by
  rw [zpow_add₀ (by norm_num), zpow_natCast]
  push_cast
  ring

/-- A multiple of a large enough unit is rounded to itself. -/
theorem eq_of_multiple {j : ℕ} {t : ℤ} (h : RoundsTo (j * 2 ^ t) q)
    (ht : (j : ℚ) * 2 ^ t < 2 ^ (t + 53)) : q = j * 2 ^ t := by
  obtain ⟨m, e, k, rfl, hle, hlt, -, hexact⟩ := h.exists_unit ht
  have hpos := two_zpow_pos e
  rw [mul_zpow_add] at hle hlt hexact ⊢
  have hge : m ≤ j * 2 ^ k := by exact_mod_cast le_of_mul_le_mul_right hle hpos
  have hlt' : j * 2 ^ k < m + 1 := by exact_mod_cast lt_of_mul_lt_mul_right hlt hpos.le
  exact hexact (by rw [show j * 2 ^ k = m by omega])

/-- Rounding does not pass a multiple of a large enough unit. -/
theorem multiple_le (h : RoundsTo v q) {j : ℕ} {t : ℤ} (hj : (j : ℚ) * 2 ^ t ≤ v)
    (ht : v < 2 ^ (t + 53)) : (j : ℚ) * 2 ^ t ≤ q := by
  obtain ⟨m, e, k, rfl, -, hlt, hq, -⟩ := h.exists_unit ht
  have hpos := two_zpow_pos e
  rw [mul_zpow_add] at hj ⊢
  have hlt' : j * 2 ^ k < m + 1 := by
    exact_mod_cast lt_of_mul_lt_mul_right (lt_of_le_of_lt hj hlt) hpos.le
  have hle : ((j * 2 ^ k : ℕ) : ℚ) ≤ m := by exact_mod_cast Nat.lt_succ_iff.mp hlt'
  exact le_trans (mul_le_mul_of_nonneg_right hle hpos.le) hq

end RoundsTo

/-- The exponent after rounding, from the range of the value. -/
theorem exponent_of_inRange {m : ℕ} {e : ℤ} {δ : ℚ} (hm : m ≠ 0) (hδ : 0 ≤ δ) (hδ' : δ < 1)
    (h : InRange ((m + δ) * 2 ^ e)) : -1074 ≤ e + m.log2 - 52 ∧ e + m.log2 - 52 ≤ 970 := by
  have hpos := two_zpow_pos e
  have hlow : (2 : ℚ) ^ (m.log2 : ℤ) ≤ m := by exact_mod_cast Nat.log2_self_le hm
  have hhigh : (m : ℚ) + 1 ≤ 2 ^ ((m.log2 : ℤ) + 1) := by exact_mod_cast Nat.lt_log2_self (n := m)
  have hbelow : (2 : ℚ) ^ (m.log2 + e) ≤ 2 ^ (1000 : ℤ) := by
    rw [zpow_add₀ (by norm_num)]
    nlinarith [h.2]
  have habove : (2 : ℚ) ^ (-1000 : ℤ) < 2 ^ ((m.log2 : ℤ) + 1 + e) := by
    rw [zpow_add₀ (by norm_num)]
    nlinarith [h.1]
  have hone : (1 : ℚ) < 2 := by norm_num
  have := (zpow_le_zpow_iff_right₀ hone).mp hbelow
  have := (zpow_lt_zpow_iff_right₀ hone).mp habove
  omega

/-- A mantissa and what follows it, less than one unit, are rounded as their sum. -/
theorem roundWithAccuracy_spec {m : Nat} {e : Int} (acc : Accuracy) {δ : ℚ} (hm : 52 ≤ m.log2)
    (hδ : 0 ≤ δ) (hδ' : δ < 1) (hacc : δ = 0 → acc = .exact) (hrange : InRange ((m + δ) * 2 ^ e)) :
    ∃ m' e', ∃ h : IsNormal m' e',
      roundWithAccuracy Format.binary64 .positive m e acc = .finite .positive m' e' h.pos ∧
        RoundsTo ((m + δ) * 2 ^ e) (m' * 2 ^ e') := by
  have hne : m ≠ 0 := by
    rintro rfl
    simp at hm
  obtain ⟨hlow, hhigh⟩ := exponent_of_inRange hne hδ hδ' hrange
  obtain ⟨r, hle, hge, hexact, m', e', hnormal, hvalue, hround⟩ :=
    exists_roundWithAccuracy acc hm hlow hhigh
  obtain ⟨hbelow, habove⟩ := kept_bounds hm
  have hpos := two_zpow_pos e
  generalize hk : m.log2 - 52 = k at hle hge hexact hbelow habove
  -- `k` bits are dropped, so a unit of what is kept is `2 ^ k` units of `m`
  have hunit : (2 : ℚ) ^ (e + m.log2 - 52) = 2 ^ k * 2 ^ e := by
    rw [← zpow_natCast, ← zpow_add₀ (by norm_num)]
    congr 1
    omega
  have hkept : ((m / 2 ^ k : ℕ) : ℚ) * 2 ^ k ≤ m := by exact_mod_cast Nat.div_mul_le_self m (2 ^ k)
  have hnext : (m : ℚ) + 1 ≤ ((m / 2 ^ k : ℕ) + 1) * 2 ^ k := by
    exact_mod_cast Nat.lt_mul_of_div_lt (Nat.lt_succ_self _) (Nat.two_pow_pos k)
  have hr : ((m / 2 ^ k : ℕ) : ℚ) ≤ r := by exact_mod_cast hle
  have hr' : (r : ℚ) ≤ (m / 2 ^ k : ℕ) + 1 := by exact_mod_cast hge
  refine ⟨m', e', hnormal, hround, m / 2 ^ k, e + m.log2 - 52, hbelow, habove, ?_⟩
  rw [hvalue, hunit]
  have hpos' : (0 : ℚ) < 2 ^ k * 2 ^ e := by positivity
  refine ⟨by nlinarith, by nlinarith, mul_le_mul_of_nonneg_right hr hpos'.le,
    mul_le_mul_of_nonneg_right hr' hpos'.le, fun hv => ?_⟩
  rw [← mul_assoc] at hv
  -- an exact value has no rest and no dropped bits
  have hsum : (m : ℚ) + δ = (m / 2 ^ k : ℕ) * 2 ^ k := mul_right_cancel₀ hpos.ne' hv
  have hzero : δ = 0 := by linarith
  have hdvd : m = m / 2 ^ k * 2 ^ k := by
    rw [hzero, add_zero] at hsum
    exact_mod_cast hsum
  rw [hexact (hacc hzero) ⟨m / 2 ^ k, by rw [Nat.mul_comm]; exact hdvd⟩, hsum, mul_assoc]

theorem log2_shiftLeft {m : Nat} (hm : m ≠ 0) (k : Nat) : (m <<< k).log2 = m.log2 + k := by
  rw [Nat.shiftLeft_eq]
  induction k with
  | zero => rw [Nat.pow_zero, Nat.mul_one, Nat.add_zero]
  | succ k ih =>
    have hne : m * 2 ^ k ≠ 0 := Nat.mul_ne_zero hm (Nat.ne_of_gt (Nat.two_pow_pos k))
    rw [Nat.pow_succ, ← Nat.mul_assoc, Nat.mul_comm _ 2, Nat.log2_two_mul hne, ih]
    rfl

/-- A positive mantissa of any size is rounded as its value. -/
theorem round_spec {m : Nat} {e : Int} (hm : 0 < m) (hrange : InRange (m * 2 ^ e)) :
    ∃ m' e', ∃ h : IsNormal m' e',
      UnpackedFloat.round Format.binary64 .positive m e = .finite .positive m' e' h.pos ∧
        RoundsTo (m * 2 ^ e) (m' * 2 ^ e') := by
  have hrange' : InRange (((m : ℚ) + 0) * 2 ^ e) := by rwa [add_zero]
  obtain ⟨hlow, -⟩ := exponent_of_inRange (Nat.ne_of_gt hm) le_rfl one_pos hrange'
  -- a short mantissa is first made long enough by zeros
  generalize hk : (e - Format.binary64.targetExponent (totalExponent m e)).toNat = k
  have hk' : k = 52 - m.log2 := by
    rw [targetExponent_eq] at hk
    omega
  have hlog : (m <<< k).log2 = m.log2 + k := log2_shiftLeft (Nat.ne_of_gt hm) k
  have hvalue : ((m <<< k : ℕ) + 0 : ℚ) * 2 ^ (e - k) = m * 2 ^ e := by
    rw [Nat.shiftLeft_eq, zpow_sub₀ (by norm_num), zpow_natCast]
    push_cast
    field_simp
    ring
  obtain ⟨m', e', h, hround, hto⟩ := roundWithAccuracy_spec (m := m <<< k) (e := e - k)
    .exact (by omega) le_rfl one_pos (fun _ => rfl) (by rwa [hvalue])
  rw [hvalue] at hto
  refine ⟨m', e', h, ?_, hto⟩
  rw [UnpackedFloat.round, decreaseExponent]
  simp only [hk]
  exact hround

/-! ## Arithmetic -/

section Arithmetic

variable {x y : Float} {u w : ℚ}

theorem denotes_of_unpacked {f : UnpackedFloat} {m : Nat} {e : Int} (h : IsNormal m e)
    (hf : f = .finite .positive m e h.pos) : Denotes (.ofModel (.pack f)) (m * 2 ^ e) :=
  ⟨m, e, h, by rw [hf, normal], rfl⟩

theorem Denotes.pos (hx : Denotes x u) : 0 < u := by
  obtain ⟨m, e, h, -, rfl⟩ := hx
  have : (0 : ℚ) < m := by exact_mod_cast h.pos
  exact mul_pos this (two_zpow_pos e)

theorem Denotes.mul (hx : Denotes x u) (hy : Denotes y w) (hrange : InRange (u * w)) :
    ∃ q, Denotes (x * y) q ∧ RoundsTo (u * w) q := by
  obtain ⟨m₁, e₁, h₁, rfl, rfl⟩ := hx
  obtain ⟨m₂, e₂, h₂, rfl, rfl⟩ := hy
  have hmul : normal m₁ e₁ h₁.pos * normal m₂ e₂ h₂.pos = .ofModel (.pack
      (UnpackedFloat.mul Format.binary64 (normal m₁ e₁ h₁.pos).toModel.unpack
        (normal m₂ e₂ h₂.pos).toModel.unpack)) := rfl
  rw [unpack_normal h₁, unpack_normal h₂, UnpackedFloat.mul] at hmul
  have hvalue : ((m₁ * m₂ : ℕ) + 0 : ℚ) * 2 ^ (e₁ + e₂) = m₁ * 2 ^ e₁ * (m₂ * 2 ^ e₂) := by
    rw [zpow_add₀ (by norm_num)]
    push_cast
    ring
  have hlog : 52 ≤ (m₁ * m₂).log2 := by
    rw [Nat.le_log2 (Nat.mul_ne_zero (Nat.ne_of_gt h₁.pos) (Nat.ne_of_gt h₂.pos))]
    exact Nat.le_trans h₁.le_mantissa (Nat.le_mul_of_pos_right _ h₂.pos)
  obtain ⟨m, e, h, hround, hto⟩ := roundWithAccuracy_spec (m := m₁ * m₂) (e := e₁ + e₂)
    .exact hlog le_rfl one_pos (fun _ => rfl) (by rwa [hvalue])
  rw [hvalue] at hto
  rw [hmul]
  exact ⟨_, denotes_of_unpacked h hround, hto⟩

/-- A quotient is taken with 53 bits more than the difference of the exponents asks for. -/
theorem divCore_eq {m₁ m₂ : Nat} {e₁ e₂ : Int} (h₁ : IsNormal m₁ e₁) (h₂ : IsNormal m₂ e₂)
    (he : -1021 < e₁ - e₂) :
    divCore Format.binary64 m₁ e₁ m₂ e₂ = (m₁ * 2 ^ 53 / m₂, e₁ - e₂ - 53,
      accuracyOfFraction (m₁ * 2 ^ 53 % m₂) m₂) := by
  have htarget : min (e₁ - e₂) (Format.binary64.targetExponent
      (totalExponent m₁ e₁ - totalExponent m₂ e₂)) = e₁ - e₂ - 53 := by
    simp only [Format.targetExponent, totalExponent, Format.mantissaBits, Format.minExponent,
      h₁.log2, h₂.log2]
    norm_num
    omega
  have hshift : (e₁ - e₂ - (e₁ - e₂ - 53)).toNat = 53 := by omega
  rw [divCore, htarget, hshift, Nat.shiftLeft_eq]

theorem le_log2_quotient {m₁ m₂ : Nat} {e₁ e₂ : Int} (h₁ : IsNormal m₁ e₁)
    (h₂ : IsNormal m₂ e₂) : 52 ≤ (m₁ * 2 ^ 53 / m₂).log2 := by
  have hle : 2 ^ 52 ≤ m₁ * 2 ^ 53 / m₂ := by
    rw [Nat.le_div_iff_mul_le h₂.pos]
    have := h₁.le_mantissa
    have := h₂.mantissa_lt
    omega
  exact (Nat.le_log2 (Nat.ne_of_gt (Nat.lt_of_lt_of_le (by decide) hle))).mpr hle

/-- A quotient and the rest that it leaves. -/
theorem cast_div_add_cast_mod (a : ℕ) {b : ℕ} (hb : 0 < b) :
    ((a / b : ℕ) : ℚ) + (a % b : ℕ) / b = a / b := by
  have hb' : (b : ℚ) ≠ 0 := by exact_mod_cast Nat.ne_of_gt hb
  have hsum : (b : ℚ) * (a / b : ℕ) + (a % b : ℕ) = a := by exact_mod_cast Nat.div_add_mod a b
  rw [← hsum]
  field_simp

theorem accuracyOfFraction_zero {a b : ℕ} (hb : 0 < b) (h : (a : ℚ) / b = 0) :
    accuracyOfFraction a b = .exact := by
  have hb' : (b : ℚ) ≠ 0 := by exact_mod_cast Nat.ne_of_gt hb
  rw [div_eq_zero_iff, or_iff_left hb', Nat.cast_eq_zero] at h
  rw [accuracyOfFraction, if_pos h]

theorem Denotes.div (hx : Denotes x u) (hy : Denotes y w) (hrange : InRange (u / w)) :
    ∃ q, Denotes (x / y) q ∧ RoundsTo (u / w) q := by
  obtain ⟨m₁, e₁, h₁, rfl, rfl⟩ := hx
  obtain ⟨m₂, e₂, h₂, rfl, rfl⟩ := hy
  have hdiv : normal m₁ e₁ h₁.pos / normal m₂ e₂ h₂.pos = .ofModel (.pack
      (UnpackedFloat.div Format.binary64 (normal m₁ e₁ h₁.pos).toModel.unpack
        (normal m₂ e₂ h₂.pos).toModel.unpack)) := rfl
  rw [unpack_normal h₁, unpack_normal h₂, UnpackedFloat.div] at hdiv
  have hpos₂ : (0 : ℚ) < m₂ := by exact_mod_cast h₂.pos
  have hquot : (m₁ * 2 ^ e₁ / (m₂ * 2 ^ e₂) : ℚ) = m₁ / m₂ * 2 ^ (e₁ - e₂) := by
    rw [zpow_sub₀ (by norm_num)]
    field_simp
  have he : -1021 < e₁ - e₂ := by
    have hlt : (m₁ : ℚ) / m₂ < 2 := by
      have hle₂ : (2 : ℚ) ^ 52 ≤ m₂ := by exact_mod_cast h₂.le_mantissa
      have hlt₁ : (m₁ : ℚ) < 2 ^ 53 := by exact_mod_cast h₁.mantissa_lt
      rw [div_lt_iff₀ hpos₂]
      linarith
    have hpow : (2 : ℚ) ^ (-1000 : ℤ) < 2 ^ (1 + (e₁ - e₂)) := by
      rw [zpow_add₀ (by norm_num), zpow_one]
      have hle := hrange.1
      rw [hquot] at hle
      exact lt_of_le_of_lt hle (mul_lt_mul_of_pos_right hlt (two_zpow_pos _))
    have := (zpow_lt_zpow_iff_right₀ (by norm_num : (1 : ℚ) < 2)).mp hpow
    omega
  have hvalue : (((m₁ * 2 ^ 53 / m₂ : ℕ) : ℚ) + (m₁ * 2 ^ 53 % m₂ : ℕ) / m₂) *
      2 ^ (e₁ - e₂ - 53) = m₁ * 2 ^ e₁ / (m₂ * 2 ^ e₂) := by
    rw [cast_div_add_cast_mod _ h₂.pos, hquot, zpow_sub₀ (by norm_num) (e₁ - e₂)]
    push_cast
    field_simp
  have hrest : ((m₁ * 2 ^ 53 % m₂ : ℕ) : ℚ) / m₂ < 1 := by
    rw [div_lt_one hpos₂]
    exact_mod_cast Nat.mod_lt _ h₂.pos
  obtain ⟨m, e, h, hround, hto⟩ := roundWithAccuracy_spec _ (le_log2_quotient h₁ h₂)
    (by positivity) hrest (accuracyOfFraction_zero h₂.pos) (by rwa [hvalue])
  rw [hvalue] at hto
  simp only [divCore_eq h₁ h₂ he] at hdiv
  rw [hdiv]
  exact ⟨_, denotes_of_unpacked h hround, hto⟩

/-- A mantissa with a smaller exponent has the same value. -/
theorem decreaseExponent_value (m : Nat) {e t : Int} (h : t ≤ e) :
    ((decreaseExponent m e t).1 : ℚ) * 2 ^ t = m * 2 ^ e := by
  have hsplit : e = t + (e - t).toNat := by omega
  rw [decreaseExponent, Nat.shiftLeft_eq]
  conv_rhs => rw [hsplit, zpow_add₀ (by norm_num), zpow_natCast]
  push_cast
  ring

theorem normalize_spec {k : Nat} {e : Int} (hk : 0 < k) (hrange : InRange (k * 2 ^ e)) :
    ∃ q, Denotes (.ofModel (.pack (normalize Format.binary64 k e .positive))) q ∧
      RoundsTo (k * 2 ^ e) q := by
  obtain ⟨m, e', h, hround, hto⟩ := round_spec hk hrange
  have hnormalize : normalize Format.binary64 k e .positive = .finite .positive m e' h.pos := by
    rw [UnpackedFloat.normalize, Int.compare_eq_gt.mpr (by exact_mod_cast hk)]
    exact hround
  exact ⟨_, denotes_of_unpacked h hnormalize, hto⟩

theorem Denotes.add (hx : Denotes x u) (hy : Denotes y w) (hrange : InRange (u + w)) :
    ∃ q, Denotes (x + y) q ∧ RoundsTo (u + w) q := by
  obtain ⟨m₁, e₁, h₁, rfl, rfl⟩ := hx
  obtain ⟨m₂, e₂, h₂, rfl, rfl⟩ := hy
  have hadd : normal m₁ e₁ h₁.pos + normal m₂ e₂ h₂.pos = .ofModel (.pack
      (UnpackedFloat.add Format.binary64 (normal m₁ e₁ h₁.pos).toModel.unpack
        (normal m₂ e₂ h₂.pos).toModel.unpack)) := rfl
  rw [unpack_normal h₁, unpack_normal h₂, UnpackedFloat.add] at hadd
  dsimp only at hadd
  have hvalue₁ := decreaseExponent_value m₁ (Int.min_le_left e₁ e₂)
  have hvalue₂ := decreaseExponent_value m₂ (Int.min_le_right e₁ e₂)
  generalize (decreaseExponent m₁ e₁ (min e₁ e₂)).1 = k₁ at hadd hvalue₁
  generalize (decreaseExponent m₂ e₂ (min e₁ e₂)).1 = k₂ at hadd hvalue₂
  have hvalue : ((k₁ + k₂ : ℕ) : ℚ) * 2 ^ min e₁ e₂ = m₁ * 2 ^ e₁ + m₂ * 2 ^ e₂ := by
    rw [← hvalue₁, ← hvalue₂]
    push_cast
    ring
  rw [← hvalue] at hrange ⊢
  have hpos : 0 < k₁ + k₂ := by
    have hpos' := lt_of_lt_of_le (two_zpow_pos (-1000)) hrange.1
    exact_mod_cast (pos_iff_pos_of_mul_pos hpos').mpr (two_zpow_pos _)
  rw [hadd]
  exact normalize_spec hpos hrange

theorem Denotes.sub (hx : Denotes x u) (hy : Denotes y w) (hrange : InRange (u - w)) :
    ∃ q, Denotes (x - y) q ∧ RoundsTo (u - w) q := by
  obtain ⟨m₁, e₁, h₁, rfl, rfl⟩ := hx
  obtain ⟨m₂, e₂, h₂, rfl, rfl⟩ := hy
  have hsub : normal m₁ e₁ h₁.pos - normal m₂ e₂ h₂.pos = .ofModel (.pack
      (UnpackedFloat.sub Format.binary64 (normal m₁ e₁ h₁.pos).toModel.unpack
        (normal m₂ e₂ h₂.pos).toModel.unpack)) := rfl
  rw [unpack_normal h₁, unpack_normal h₂, UnpackedFloat.sub] at hsub
  dsimp only at hsub
  have hvalue₁ := decreaseExponent_value m₁ (Int.min_le_left e₁ e₂)
  have hvalue₂ := decreaseExponent_value m₂ (Int.min_le_right e₁ e₂)
  generalize (decreaseExponent m₁ e₁ (min e₁ e₂)).1 = k₁ at hsub hvalue₁
  generalize (decreaseExponent m₂ e₂ (min e₁ e₂)).1 = k₂ at hsub hvalue₂
  have hdiff : ((k₁ : ℚ) - k₂) * 2 ^ min e₁ e₂ = m₁ * 2 ^ e₁ - m₂ * 2 ^ e₂ := by
    rw [← hvalue₁, ← hvalue₂]
    ring
  have hlt : k₂ < k₁ := by
    have hpos' := lt_of_lt_of_le (two_zpow_pos (-1000)) hrange.1
    rw [← hdiff] at hpos'
    have := (pos_iff_pos_of_mul_pos hpos').mpr (two_zpow_pos _)
    exact_mod_cast sub_pos.mp this
  have hvalue : ((k₁ - k₂ : ℕ) : ℚ) * 2 ^ min e₁ e₂ = m₁ * 2 ^ e₁ - m₂ * 2 ^ e₂ := by
    rw [← hdiff, Nat.cast_sub hlt.le]
  rw [← hvalue] at hrange ⊢
  have happly : Sign.positive.apply (k₁ : Int) - Sign.positive.apply k₂ = ((k₁ - k₂ : ℕ) : Int) :=
    (Int.ofNat_sub hlt.le).symm
  rw [hsub, happly]
  exact normalize_spec (Nat.sub_pos_of_lt hlt) hrange

end Arithmetic

/-! ## Integers -/

theorem inRange_of_bounds {v : ℚ} (h : 1 / 2 ^ 100 ≤ v) (h' : v ≤ 2 ^ 100) : InRange v := by
  constructor
  · refine le_trans ?_ h
    rw [one_div, ← zpow_natCast, ← zpow_neg]
    exact zpow_le_zpow_right₀ (by norm_num) (by norm_num)
  · refine le_trans h' ?_
    rw [← zpow_natCast]
    exact zpow_le_zpow_right₀ (by norm_num) (by norm_num)

theorem inRange_natCast {n : ℕ} (hn : 0 < n) (hlt : n < 2 ^ 53) : InRange n := by
  have hn' : (1 : ℚ) ≤ n := by exact_mod_cast hn
  have hlt' : (n : ℚ) < 2 ^ 53 := by exact_mod_cast hlt
  exact inRange_of_bounds (by norm_num; linarith) (by norm_num at hlt' ⊢; linarith)

/-- An integer below `2 ^ 53` is rounded to itself. -/
theorem RoundsTo.eq_natCast {n : ℕ} {q : ℚ} (h : RoundsTo n q) (hlt : n < 2 ^ 53) : q = n := by
  have hmultiple : (n : ℚ) = n * 2 ^ (0 : ℤ) := by rw [zpow_zero, mul_one]
  rw [hmultiple] at h ⊢
  refine h.eq_of_multiple ?_
  rw [zpow_zero, mul_one]
  exact_mod_cast hlt

theorem denotes_one : Denotes (Float.ofBits 0x3FF0000000000000) 1 :=
  ⟨2 ^ 52, -52, ⟨by norm_num, by norm_num, by norm_num, by norm_num⟩, by rfl, by norm_num⟩

/-- An integer below `2 ^ 53` is converted without rounding. -/
theorem denotes_toUInt64 {n : ℕ} (hn : 0 < n) (hlt : n < 2 ^ 53) :
    Denotes n.toUInt64.toFloat n := by
  have hnat : n.toUInt64.toNat = n := by
    show n % 2 ^ 64 = n
    omega
  have hword : n.toUInt64.toFloat =
      .ofModel (.pack (normalize Format.binary64 (n : ℕ) 0 .positive)) := by
    conv_rhs => rw [← hnat]
    rfl
  have hvalue : (n : ℚ) = n * 2 ^ (0 : ℤ) := by rw [zpow_zero, mul_one]
  obtain ⟨q, hq, hto⟩ := normalize_spec (e := 0) hn (by rw [← hvalue]; exact inRange_natCast hn hlt)
  rw [← hvalue] at hto
  rwa [← hword, hto.eq_natCast hlt] at hq

theorem denotes_toFloat {n : ℕ} (hn : 0 < n) (hlt : n < 2 ^ 53) : Denotes n.toFloat n := by
  have htoFloat : n.toFloat = n.toUInt64.toFloat * Float.ofBits 0x3FF0000000000000 := by
    show Float.ofScientific n false 0 = _
    rw [Float.ofScientific, dif_pos ⟨hlt, by norm_num⟩]
    rfl
  obtain ⟨p, hp, hto⟩ :=
    (denotes_toUInt64 hn hlt).mul denotes_one (by rw [mul_one]; exact inRange_natCast hn hlt)
  rw [mul_one] at hto
  rwa [htoFloat, ← hto.eq_natCast hlt]

section Reading

variable {x y : Float} {u w : ℚ} {n : ℕ}

/-- The part before the point. -/
theorem Denotes.wholePart_eq (hx : Denotes x u) (hle : (n : ℚ) ≤ u) (hlt : u < n + 1) :
    wholePart x = n := by
  obtain ⟨m, e, h, rfl, rfl⟩ := hx
  rw [wholePart, form_normal h]
  show (if 0 ≤ e then m <<< e.toNat else m >>> (-e).toNat) = n
  rw [Nat.shiftLeft_eq, Nat.shiftRight_eq_div_pow]
  split
  · next hpos =>
    obtain ⟨k, rfl⟩ := Int.eq_ofNat_of_zero_le hpos
    rw [zpow_natCast] at hle hlt
    have : n ≤ m * 2 ^ k := by exact_mod_cast hle
    have : m * 2 ^ k < n + 1 := by exact_mod_cast hlt
    rw [Int.toNat_natCast]
    omega
  · next hneg =>
    obtain ⟨k, hk⟩ := Int.eq_ofNat_of_zero_le (a := -e) (by omega)
    have he : e = -(k : Int) := by omega
    subst he
    have hunit : (0 : ℚ) < 2 ^ k := by positivity
    rw [zpow_neg, zpow_natCast, ← div_eq_mul_inv] at hle hlt
    rw [le_div_iff₀ hunit] at hle
    rw [div_lt_iff₀ hunit] at hlt
    rw [neg_neg, Int.toNat_natCast]
    exact Nat.div_eq_of_lt_le (by exact_mod_cast hle) (by exact_mod_cast hlt)

/-- The nearest integer. -/
theorem Denotes.roundedMagnitude_eq (hx : Denotes x u) (hnear : |u - n| < 1 / 2) :
    roundedMagnitude x = n := by
  obtain ⟨m, e, h, rfl, rfl⟩ := hx
  obtain ⟨hbelow, habove⟩ := abs_lt.mp hnear
  rw [roundedMagnitude, form_normal h]
  show (if 0 ≤ e then m <<< e.toNat
    else (2 * m + 1 <<< (-e).toNat) / (2 * 1 <<< (-e).toNat)) = n
  rw [Nat.shiftLeft_eq, Nat.one_shiftLeft]
  split
  · next hpos =>
    obtain ⟨k, rfl⟩ := Int.eq_ofNat_of_zero_le hpos
    rw [zpow_natCast] at hbelow habove
    have hlt : ((m * 2 ^ k : ℕ) : ℚ) < n + 1 := by push_cast; linarith
    have hlt' : (n : ℚ) < (m * 2 ^ k : ℕ) + 1 := by push_cast; linarith
    have : m * 2 ^ k < n + 1 := by exact_mod_cast hlt
    have : n < m * 2 ^ k + 1 := by exact_mod_cast hlt'
    rw [Int.toNat_natCast]
    omega
  · next hneg =>
    obtain ⟨k, hk⟩ := Int.eq_ofNat_of_zero_le (a := -e) (by omega)
    have he : e = -(k : Int) := by omega
    subst he
    have hunit : (0 : ℚ) < 2 ^ k := by positivity
    rw [zpow_neg, zpow_natCast, ← div_eq_mul_inv] at hbelow habove
    have hle : (n : ℚ) * (2 * 2 ^ k) ≤ 2 * m + 2 ^ k := by
      have : (n : ℚ) - 1 / 2 < m / 2 ^ k := by linarith
      rw [lt_div_iff₀ hunit] at this
      linarith
    have hlt : (2 : ℚ) * m + 2 ^ k < (n + 1) * (2 * 2 ^ k) := by
      have : (m : ℚ) / 2 ^ k < n + 1 / 2 := by linarith
      rw [div_lt_iff₀ hunit] at this
      linarith
    rw [neg_neg, Int.toNat_natCast]
    exact Nat.div_eq_of_lt_le (by exact_mod_cast hle) (by exact_mod_cast hlt)

theorem Denotes.isFinite (hx : Denotes x u) : x.isFinite = true := by
  obtain ⟨m, e, h, rfl, rfl⟩ := hx
  show (normal m e h.pos).toModel.unpack.isFinite = true
  rw [unpack_normal h]
  rfl

theorem Denotes.zero_le (hx : Denotes x u) : 0.0 ≤ x := by
  obtain ⟨m, e, h, rfl, rfl⟩ := hx
  have hzero : (0.0 : Float).toModel.unpack = .zero .positive := by rfl
  have hle : ((0.0 : Float).toModel.unpack.le (normal m e h.pos).toModel.unpack) = true := by
    rw [hzero, unpack_normal h]
    rfl
  show decide (_ = true) = true
  exact decide_eq_true hle

/-- A greater exponent is a greater value. -/
theorem IsNormal.lt_of_exponent_lt {m₁ m₂ : ℕ} {e₁ e₂ : ℤ} (h₁ : IsNormal m₁ e₁)
    (h₂ : IsNormal m₂ e₂) (he : e₁ < e₂) : (m₁ : ℚ) * 2 ^ e₁ < m₂ * 2 ^ e₂ := by
  have hlt₁ : (m₁ : ℚ) < 2 ^ (53 : ℤ) := by exact_mod_cast h₁.mantissa_lt
  have hle₂ : (2 : ℚ) ^ (52 : ℤ) ≤ m₂ := by exact_mod_cast h₂.le_mantissa
  calc (m₁ : ℚ) * 2 ^ e₁ < 2 ^ (53 : ℤ) * 2 ^ e₁ := mul_lt_mul_of_pos_right hlt₁ (two_zpow_pos _)
    _ = 2 ^ (53 + e₁) := (zpow_add₀ (by norm_num) _ _).symm
    _ ≤ 2 ^ (52 + e₂) := zpow_le_zpow_right₀ (by norm_num) (by omega)
    _ = 2 ^ (52 : ℤ) * 2 ^ e₂ := zpow_add₀ (by norm_num) _ _
    _ ≤ m₂ * 2 ^ e₂ := mul_le_mul_of_nonneg_right hle₂ (two_zpow_pos _).le

/-- Floats are compared as their values. -/
theorem Denotes.lt_iff (hx : Denotes x u) (hy : Denotes y w) : x < y ↔ u < w := by
  obtain ⟨m₁, e₁, h₁, rfl, rfl⟩ := hx
  obtain ⟨m₂, e₂, h₂, rfl, rfl⟩ := hy
  have hcompare : normal m₁ e₁ h₁.pos < normal m₂ e₂ h₂.pos ↔
      (compare e₁ e₂).then (compare m₁ m₂) = .lt := by
    show decide ((normal m₁ e₁ h₁.pos).toModel.unpack.lt
      (normal m₂ e₂ h₂.pos).toModel.unpack = true) = true ↔ _
    rw [unpack_normal h₁, unpack_normal h₂, decide_eq_true_iff, UnpackedFloat.lt,
      UnpackedFloat.compare, beq_iff_eq, Option.some_inj]
  rw [hcompare]
  rcases Int.lt_trichotomy e₁ e₂ with he | rfl | he
  · rw [Int.compare_eq_lt.mpr he]
    exact ⟨fun _ => h₁.lt_of_exponent_lt h₂ he, fun _ => rfl⟩
  · rw [Int.compare_eq_eq.mpr rfl, Ordering.eq_then, Nat.compare_eq_lt,
      mul_lt_mul_iff_left₀ (two_zpow_pos _), Nat.cast_lt]
  · rw [Int.compare_eq_gt.mpr he]
    exact ⟨fun h => absurd h Ordering.noConfusion,
      fun h => absurd h (h₂.lt_of_exponent_lt h₁ he).not_gt⟩

end Reading

end Catalogue.Number
