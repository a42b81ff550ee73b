import Catalogue.Proofs.Number.Rounding

/-!
# Decimals below the range's end

Halfway between the greatest float and the next power of two stands the least number that is
rounded to infinity. A decimal below it is rounded to a finite float, also when it is too small for
all the bits of a mantissa.

* `Bounded` — zero, or a number with an exponent that a finite float can have.
* `bounded_roundWithAccuracy` — what is below the end is still bounded after rounding.
* `isFinite_toFloat` — a decimal below the end denotes a finite float.
-/

namespace Catalogue.Number

open Float.Model Float.Model.UnpackedFloat

/-! ## Exponents -/

/-- Zero, or a number whose exponent is not too large for a finite float. -/
def Bounded : UnpackedFloat → Prop
  | .zero _ => True
  | .finite _ _ e _ => e ≤ 971
  | _ => False

/-- Only the infinities and the undefined numbers have all bits of the exponent set. -/
theorem isFinite_unpack_iff {b : BitVec Format.binary64.numBits} :
    (UnpackedFloat.unpack Format.binary64 b).isFinite = true ↔ unpackExponent b ≠ -1#11 := by
  unfold UnpackedFloat.unpack
  dsimp only
  by_cases hones : unpackExponent b = -1#11
  · rw [if_pos hones]
    split <;> exact iff_of_false Bool.false_ne_true (not_not.mpr hones)
  · rw [if_neg hones]
    refine iff_of_true ?_ hones
    split
    · split <;> rfl
    · rfl

theorem Bounded.isFinite {u : UnpackedFloat} (h : Bounded u) :
    (Float.ofModel (.pack u)).isFinite = true := by
  show (UnpackedFloat.unpack Format.binary64 (UnpackedFloat.pack Format.binary64 u)).isFinite = true
  refine isFinite_unpack_iff.mpr fun hones => ?_
  cases u with
  | zero s =>
    rw [UnpackedFloat.pack, packedZero, unpackExponent_packComponents] at hones
    cases hones
  | infinity => exact h
  | notANumber => exact h
  | finite s m e hm =>
    have he : e ≤ 971 := h
    have hbias : (Format.binary64.exponentBias : Int) = 1023 := by decide
    have hsmall : ¬ 2 ^ 11 ≤ (e + (Format.binary64.exponentBias : Nat) + (52 : Nat)).toNat + 1 := by
      omega
    unfold UnpackedFloat.pack at hones
    dsimp only at hones
    rw [if_neg hsmall] at hones
    split at hones
    · rw [unpackExponent_packComponents] at hones
      have hfield := congrArg BitVec.toNat hones
      rw [BitVec.toNat_ofNat] at hfield
      change _ % 2 ^ 11 = 2047 at hfield
      omega
    · rw [unpackExponent_packComponents] at hones
      cases hones

theorem bounded_of_isFinite_unpack {b : BitVec Format.binary64.numBits}
    (h : (UnpackedFloat.unpack Format.binary64 b).isFinite = true) :
    Bounded (UnpackedFloat.unpack Format.binary64 b) := by
  have hbias : (Format.binary64.exponentBias : Int) = 1023 := by decide
  have hones := isFinite_unpack_iff.mp h
  unfold UnpackedFloat.unpack
  dsimp only
  rw [if_neg hones]
  generalize (unpackExponent b : BitVec 11) = field at hones ⊢
  have hne : field.toNat ≠ 2047 := fun heq => hones (BitVec.eq_of_toNat_eq heq)
  have hlt : field.toNat < 2048 := field.isLt
  split
  · next hzero =>
    split
    · trivial
    · rw [hzero]
      show ((0 : Nat) : Int) - ((Format.binary64.exponentBias : Nat) + (52 : Nat)) + 1 ≤ 971
      omega
  · show (field.toNat : Int) - ((Format.binary64.exponentBias : Nat) + (52 : Nat)) ≤ 971
    omega

/-- A finite float is bounded. -/
theorem bounded_unpack {x : Float} (h : x.isFinite = true) : Bounded x.toModel.unpack :=
  bounded_of_isFinite_unpack h

theorem toNat_unpackExponent (b : BitVec Format.binary64.numBits) :
    (unpackExponent b).toNat = b.toNat / 0x10000000000000 % 0x800 := by
  unfold unpackExponent
  rw [BitVec.toNat_cast, BitVec.extractLsb_toNat, Nat.shiftRight_eq_div_pow]
  rfl

theorem toNat_unpackMantissa (b : BitVec Format.binary64.numBits) :
    (unpackMantissa b).toNat = b.toNat % 0x10000000000000 := by
  unfold unpackMantissa
  rw [BitVec.toNat_cast, BitVec.extractLsb_toNat, Nat.shiftRight_zero]
  rfl

theorem toNat_beq_iff {width k : Nat} {a b : BitVec width} (h : b.toNat = k) :
    (a.toNat == k) = true ↔ a = b := by
  rw [beq_iff_eq, ← h, BitVec.toNat_inj]

/-- The magnitude of an unpacked number. -/
def magnitude : UnpackedFloat → Form
  | .zero _ => .finite 0 (-1074)
  | .finite _ m e _ => .finite m e
  | .infinity _ => .infinite
  | .notANumber => .undefined

/-- The magnitude that is read from the bits is that of the unpacked number. -/
theorem form_eq_magnitude (x : Float) : form x = magnitude x.toModel.unpack := by
  change _ = magnitude (UnpackedFloat.unpack Format.binary64 x.toBits.toBitVec)
  unfold form UnpackedFloat.unpack
  dsimp only
  rw [← UInt64.toNat_toBitVec, ← toNat_unpackExponent x.toBits.toBitVec,
    ← toNat_unpackMantissa x.toBits.toBitVec]
  by_cases hones : @unpackExponent Format.binary64 x.toBits.toBitVec = -1#11
  · rw [if_pos hones, if_pos ((toNat_beq_iff (by rfl)).mpr hones)]
    by_cases hfraction : @unpackMantissa Format.binary64 x.toBits.toBitVec = 0#52
    · rw [if_pos hfraction, if_pos ((toNat_beq_iff (by rfl)).mpr hfraction)]
      rfl
    · rw [if_neg hfraction, if_neg ((toNat_beq_iff (by rfl)).not.mpr hfraction)]
      rfl
  rw [if_neg hones, if_neg ((toNat_beq_iff (by rfl)).not.mpr hones)]
  -- the highest bit of the mantissa is left out unless the exponent is the least one
  by_cases hzero : @unpackExponent Format.binary64 x.toBits.toBitVec = 0#11
  · rw [if_pos hzero, if_pos ((toNat_beq_iff (by rfl)).mpr hzero)]
    by_cases hfraction : @unpackMantissa Format.binary64 x.toBits.toBitVec = 0#52
    · rw [dif_pos hfraction, hfraction]
      rfl
    · rw [dif_neg hfraction, hzero]
      rfl
  · rw [if_neg hzero, if_neg ((toNat_beq_iff (by rfl)).not.mpr hzero), magnitude,
      BitVec.toNat_append, ← Nat.shiftLeft_add_eq_or_of_lt (BitVec.isLt _), Nat.add_comm]
    rfl

/-- A finite float has a mantissa and an exponent within the bounds of the format. -/
theorem form_of_isFinite {x : Float} (h : x.isFinite = true) :
    ∃ m q, form x = .finite m q ∧ m < 2 ^ 53 ∧ -1074 ≤ q ∧ q ≤ 971 := by
  have hne : x.toBits.toNat / 0x10000000000000 % 0x800 ≠ 2047 := fun heq =>
    isFinite_unpack_iff.mp h (BitVec.eq_of_toNat_eq ((toNat_unpackExponent _).trans heq))
  unfold form
  dsimp only
  generalize x.toBits.toNat = bits at hne ⊢
  rw [if_neg (by rwa [beq_iff_eq])]
  split
  · exact ⟨_, _, rfl, by omega, by omega, by omega⟩
  · next hzero =>
    rw [beq_iff_eq] at hzero
    refine ⟨_, _, rfl, by omega, ?_, ?_⟩
    · show -1074 ≤ ((_ : Nat) : Int) - 1075
      omega
    · show ((_ : Nat) : Int) - 1075 ≤ 971
      omega

theorem Bounded.neg {u : UnpackedFloat} (h : Bounded u) : Bounded u.neg := by
  cases u <;> exact h

theorem isFinite_neg {x : Float} (h : x.isFinite = true) : (-x).isFinite = true :=
  (bounded_unpack h).neg.isFinite

/-! ## Rounding -/

theorem roundedMantissa_of_roundBit {em : ExtendedMantissa} (h : em.roundBit = false) :
    em.roundedMantissa = em.mantissa := by
  obtain ⟨m, r, s⟩ := em
  obtain rfl : r = false := h
  cases s <;> rfl

/-- What is left of a mantissa after a shift that leaves no more bits than a float has. -/
theorem shifted_lt {m k : Nat} (h : m.log2 ≤ k + 52) : m / 2 ^ k < 2 ^ 53 := by
  rw [Nat.div_lt_iff_lt_mul (Nat.two_pow_pos k), ← Nat.pow_add]
  exact Nat.lt_of_lt_of_le Nat.lt_log2_self (Nat.pow_le_pow_right (by decide) (by omega))

/-- Below the end of the range the last shift leaves no mantissa that is rounded up to one more
bit. -/
theorem roundedMantissa_lt {em : ExtendedMantissa} {k : Nat}
    (h : em.mantissa < (2 ^ 54 - 1) * 2 ^ k) : (em >>> (k + 1)).roundedMantissa < 2 ^ 53 := by
  have hshift : em >>> (k + 1) = (em >>> k).shiftRightOne := rfl
  have hlt : (em >>> k).mantissa < 2 ^ 54 - 1 := by
    rw [shiftRight_mantissa, Nat.div_lt_iff_lt_mul (Nat.two_pow_pos k)]
    exact h
  have hle := roundedMantissa_le (em >>> (k + 1))
  rw [hshift] at hle ⊢
  generalize em >>> k = kept at hlt hle ⊢
  have hhalf : kept.shiftRightOne.mantissa = kept.mantissa / 2 := rfl
  by_cases heven : kept.mantissa % 2 = 0
  · have hbit : kept.shiftRightOne.roundBit = false := by
      show (kept.mantissa % 2 != 0) = false
      rw [heven]
      rfl
    rw [roundedMantissa_of_roundBit hbit]
    omega
  · omega

/-- A mantissa is shifted until it has no more bits than a float has. -/
theorem exists_shift (m : Nat) (e : Int) (acc : Accuracy) :
    ∃ k : Nat, (k : Int) = max 0 (max (e + m.log2 - 52) (-1074) - e) ∧
      shiftToTargetExponent Format.binary64 m e acc =
        (ExtendedMantissa.ofMantissaAndAccuracy m acc >>> k, e + k) := by
  refine ⟨(max (e + m.log2 - 52) (-1074) - e).toNat, by omega, ?_⟩
  rw [shiftToTargetExponent, targetExponent_eq]
  rfl

/-- What is below the end of the range is rounded to a float. -/
theorem bounded_roundWithAccuracy {m : Nat} {e : Int} (s : Sign) (acc : Accuracy) (he : e ≤ 970)
    (hm : m < (2 ^ 54 - 1) * 2 ^ (970 - e).toNat) :
    Bounded (roundWithAccuracy Format.binary64 s m e acc) := by
  have hlog : m.log2 + e ≤ 1023 := by
    by_cases hzero : m = 0
    · rw [hzero, Nat.log2_zero]
      omega
    · have hpow : m < 2 ^ (54 + (970 - e).toNat) := by
        rw [Nat.pow_add]
        exact Nat.lt_of_lt_of_le hm (Nat.mul_le_mul_right _ (Nat.sub_le _ _))
      have := (Nat.log2_lt hzero).mpr hpow
      omega
  obtain ⟨k, hk, hfirst⟩ := exists_shift m e acc
  generalize hem : ExtendedMantissa.ofMantissaAndAccuracy m acc >>> k = em at hfirst
  have hkept : em.mantissa < 2 ^ 53 := by
    rw [← hem, shiftRight_mantissa, mantissa_ofMantissaAndAccuracy]
    exact shifted_lt (by omega)
  -- at the highest exponent nothing is rounded up to a mantissa with one bit more
  have hrounded : em.roundedMantissa < 2 ^ 53 ∨ (em.roundedMantissa ≤ 2 ^ 53 ∧ e + k ≤ 970) := by
    by_cases htop : e + k ≤ 970
    · have := roundedMantissa_le em
      exact .inr ⟨by omega, htop⟩
    · have hsucc : k = (970 - e).toNat + 1 := by omega
      rw [← hem, hsucc]
      refine .inl (roundedMantissa_lt ?_)
      rwa [mantissa_ofMantissaAndAccuracy]
  have htop : e + k + em.roundedMantissa.log2 ≤ 1023 := by
    by_cases hzero : em.roundedMantissa = 0
    · rw [hzero, Nat.log2_zero]
      omega
    · rcases hrounded with hlt | ⟨hle, hroom⟩
      · have := (Nat.log2_lt hzero).mpr hlt
        omega
      · have := (Nat.log2_lt hzero).mpr (Nat.lt_of_le_of_lt hle (by decide : 2 ^ 53 < 2 ^ 54))
        omega
  obtain ⟨k', hk', hsecond⟩ := exists_shift em.roundedMantissa (e + k) .exact
  rw [roundWithAccuracy, hfirst]
  dsimp only
  rw [hsecond]
  split
  · trivial
  · show e + k + k' ≤ 971
    omega

/-! ## Decimals -/

/-- The powers of ten up to the 22nd are floats. -/
theorem denotes_powerOfTen {k : Nat} (hk : k ≤ 22)
    (h : k < Float.exactlyRepresentablePowersOfTen.size) :
    Denotes Float.exactlyRepresentablePowersOfTen[k] (10 ^ k) := by
  -- the mantissa is the power of five, shifted to the left as far as there is room
  have hnormal : IsNormal (5 ^ k * 2 ^ (52 - (5 ^ k).log2)) (k - (52 - (5 ^ k).log2 : Nat)) := by
    constructor <;> interval_cases k <;> decide +kernel
  refine ⟨_, _, hnormal, ?_, ?_⟩
  · interval_cases k <;> rfl
  · rw [zpow_sub₀ (by norm_num), zpow_natCast, zpow_natCast]
    push_cast
    field_simp
    rw [← mul_pow]
    norm_num

/-- The exponent of half a bit of the greatest floats. It is not unfolded, so that no proof computes
the powers of two. -/
@[irreducible] def endExponent : Nat := 970

theorem endExponent_eq : endExponent = 970 := by
  rw [endExponent]

/-- The quotient is below the least number that is rounded to infinity. -/
def BelowEnd (m n : Nat) : Prop := m < (2 ^ 54 - 1) * 2 ^ endExponent * n

theorem belowEnd_zero {n : Nat} (hn : 0 < n) : BelowEnd 0 n :=
  Nat.mul_pos (Nat.mul_pos (by decide) (Nat.two_pow_pos _)) hn

/-- A bound on a mantissa moves with the bits of the mantissa. -/
theorem mul_two_pow_lt {m n c p : Nat} (h : m < c * 2 ^ p * n) (k : Nat) :
    m * 2 ^ k < c * 2 ^ (p + k) * n := by
  calc m * 2 ^ k < c * 2 ^ p * n * 2 ^ k := Nat.mul_lt_mul_of_pos_right h (Nat.two_pow_pos k)
    _ = c * 2 ^ (p + k) * n := by rw [pow_add]; ring

/-- A quotient is rounded to a float, whatever number of bits it is given after the point. -/
theorem BelowEnd.quotient {m n k : Nat} {e : Int} (h : BelowEnd m n) (hn : 0 < n)
    (he : e = -(k : Int)) (s : Sign) (acc : Accuracy) :
    Bounded (roundWithAccuracy Format.binary64 s (m * 2 ^ k / n) e acc) := by
  have hend := endExponent_eq
  have hroom : (970 - e).toNat = endExponent + k := by omega
  refine bounded_roundWithAccuracy s acc (by omega) ?_
  rw [hroom, Nat.div_lt_iff_lt_mul hn]
  exact mul_two_pow_lt h k

theorem neg_toNat_min (t : Int) : min (0 - 0) t = -((0 - 0 - min (0 - 0) t).toNat : Int) := by
  omega

/-- A decimal below the end of the range is rounded to a float. -/
theorem BelowEnd.ofScientific {m k : Nat} (h : BelowEnd m (10 ^ k)) :
    Bounded (UnpackedFloat.ofScientific Format.binary64 m (-(k : Int))) := by
  unfold UnpackedFloat.ofScientific
  by_cases hm : m = 0
  · rw [dif_pos hm]
    trivial
  have hsmall : ¬ -(k : Int) > 2 ^ 11 := by omega
  rw [dif_neg hm, if_neg hsmall]
  split
  · trivial
  split
  · next hk =>
    obtain rfl : k = 0 := by omega
    have hbits : Format.binary64.mantissaBits = 53 := rfl
    have hone : 10 ^ (-((0 : Nat) : Int)).toNat = 1 := rfl
    have hquotient := h.quotient Nat.one_pos (e := -53) (k := 53) rfl .positive .exact
    rw [Nat.pow_zero, Nat.div_one] at hquotient
    rw [UnpackedFloat.mul, hbits, hone, Nat.mul_one, Nat.shiftLeft_eq, Int.add_zero]
    exact hquotient
  · have hpower : (- -(k : Int)).toNat = k := by omega
    rw [UnpackedFloat.div, divCore, hpower, Nat.shiftLeft_eq]
    exact h.quotient (Nat.pow_pos (by decide)) (neg_toNat_min _) _ _

theorem inRange_div_powerOfTen {m k : ℕ} (hm : 0 < m) (hlt : m < 2 ^ 53) (hk : k ≤ 22) :
    InRange (m / 10 ^ k) := by
  have hm' : (1 : ℚ) ≤ m := by exact_mod_cast hm
  have hlt' : (m : ℚ) < 2 ^ 53 := by exact_mod_cast hlt
  have hone : (1 : ℚ) ≤ 10 ^ k := one_le_pow₀ (by norm_num)
  have hpower : (10 : ℚ) ^ k ≤ 2 ^ 100 :=
    (pow_le_pow_right₀ (by norm_num) hk).trans (by norm_num)
  apply inRange_of_bounds
  · calc (1 : ℚ) / 2 ^ 100 ≤ 1 / 10 ^ k := one_div_le_one_div_of_le (by positivity) hpower
      _ ≤ m / 10 ^ k := by gcongr
  · calc (m : ℚ) / 10 ^ k ≤ m := div_le_self (by positivity) hone
      _ ≤ 2 ^ 100 := hlt'.le.trans (by norm_num)

/-- Digits and a number of places after the point are read as a finite float. -/
theorem BelowEnd.isFinite {m k : Nat} (h : BelowEnd m (10 ^ k)) (hm : m ≠ 0) :
    (Float.ofScientific m (decide (-(k : Int) < 0)) k).isFinite = true := by
  have hpos : 0 < m := Nat.pos_of_ne_zero hm
  rw [Float.ofScientific]
  by_cases hfast : m < 2 ^ 53 ∧ k ≤ 22
  -- both numbers are floats, and so is what their quotient is rounded to
  · obtain ⟨hlt, hk⟩ := hfast
    rw [dif_pos ⟨hlt, hk⟩]
    have hdigits := denotes_toUInt64 hpos hlt
    have hpower := denotes_powerOfTen hk
      (by simp [Float.exactlyRepresentablePowersOfTen]; omega)
    dsimp only
    split
    · obtain ⟨q, hq, -⟩ := hdigits.div hpower (inRange_div_powerOfTen hpos hlt hk)
      exact hq.isFinite
    · next hplaces =>
      obtain rfl : k = 0 := by simpa using hplaces
      have hrange : InRange ((m : ℚ) * 10 ^ 0) := by
        rw [pow_zero, mul_one]
        exact inRange_natCast hpos hlt
      obtain ⟨q, hq, -⟩ := hdigits.mul hpower hrange
      exact hq.isFinite
  · have hexponent : (if decide (-(k : Int) < 0) = true then Int.negOfNat k else Int.ofNat k) =
        -(k : Int) := by
      split
      · exact Int.negOfNat_eq
      · next hplaces =>
        obtain rfl : k = 0 := by simpa using hplaces
        rfl
    rw [dif_neg hfast]
    dsimp only
    rw [hexponent]
    exact h.ofScientific.isFinite

/-- Three bits are less than one decimal digit. -/
theorem lt_ten_pow {m c a p n k : Nat} (h : m < c * 2 ^ p * 10 ^ k) (hc : c ≤ 2 ^ a)
    (hn : a + p ≤ 3 * n) : m < 10 ^ (n + k) := by
  calc m < c * 2 ^ p * 10 ^ k := h
    _ ≤ 2 ^ a * 2 ^ p * 10 ^ k := Nat.mul_le_mul_right _ (Nat.mul_le_mul_right _ hc)
    _ = 2 ^ (a + p) * 10 ^ k := by rw [Nat.pow_add]
    _ ≤ (2 ^ 3) ^ n * 10 ^ k := by
      rw [← Nat.pow_mul]
      exact Nat.mul_le_mul_right _ (Nat.pow_le_pow_right (by decide) hn)
    _ ≤ 10 ^ n * 10 ^ k := Nat.mul_le_mul_right _ (Nat.pow_le_pow_left (by decide) n)
    _ = 10 ^ (n + k) := (Nat.pow_add 10 n k).symm

theorem digitCount_le_of_lt {m k : Nat} (hk : 0 < k) (h : m < 10 ^ k) : digitCount m ≤ k := by
  rwa [digitCount, ← String.length_toList, Nat.toList_repr,
    Nat.length_toDigits_le_iff (by decide) hk]

/-- A decimal below the end of the range has at most `400` digits before its point. -/
theorem BelowEnd.digitCount_le {m k : Nat} (h : BelowEnd m (10 ^ k)) :
    digitCount m ≤ 400 + k := by
  have hend := endExponent_eq
  exact digitCount_le_of_lt (by omega) (lt_ten_pow (a := 54) h (Nat.sub_le _ _) (by omega))

/-- A decimal below the end of the range denotes a finite float. -/
theorem BelowEnd.isFinite_toFloat {m k : Nat} (h : BelowEnd m (10 ^ k)) (negative : Bool) :
    (Decimal.finite negative m (-(k : Int))).toFloat.isFinite = true := by
  have hzero : (0.0 : Float).isFinite = true := by rfl
  have hnearest : (nearestFloat m (-(k : Int))).isFinite = true := by
    have hcount := h.digitCount_le
    have hlow : ¬ 400 < -(k : Int) + digitCount m := by omega
    unfold nearestFloat
    by_cases hm : m = 0
    · rw [if_pos (beq_iff_eq.mpr hm)]
      exact hzero
    · rw [if_neg (by rwa [beq_iff_eq])]
      dsimp only
      rw [if_neg hlow]
      split
      · exact hzero
      · rw [Int.natAbs_neg, Int.natAbs_natCast]
        exact h.isFinite hm
  rw [Decimal.toFloat]
  split
  · exact isFinite_neg hnearest
  · exact hnearest

end Catalogue.Number
