import Catalogue.Proofs.Number.Finite

/-!
# The nearest float of an integer

A finite float stands for a rational number with at most 53 significant bits. An integer of 64 bits
becomes the float that is nearest to it, and of two that are equally near the one with the even
mantissa. So it stays the same number exactly when it has at most 53 significant bits.

* `value?` — the number that a float stands for.
* `IsBinary` — numbers with at most 53 significant bits.
* `Nearest` — a float that a number is rounded to.
* `exists_nearest_int64` — the float of an integer.
-/

namespace Catalogue.Number

open Float.Model Float.Model.UnpackedFloat

/-! ## Values of floats -/

/-- The number that an unpacked float stands for, if it is finite. -/
def signedValue? : UnpackedFloat → Option ℚ
  | .zero _ => some 0
  | .finite .positive m e _ => some (m * 2 ^ e)
  | .finite .negative m e _ => some (-(m * 2 ^ e))
  | .infinity _ => none
  | .notANumber => none

/-- The number that a float stands for, if it is finite. -/
def value? (x : Float) : Option ℚ := signedValue? x.toModel.unpack

/-- A number has at most 53 significant bits. -/
def IsBinary (p : ℚ) : Prop := ∃ (j : ℕ) (t : ℤ), j < 2 ^ 53 ∧ |p| = j * 2 ^ t

theorem abs_mantissa (m : ℕ) (e : ℤ) : |(m : ℚ) * 2 ^ e| = m * 2 ^ e :=
  abs_of_nonneg (mul_nonneg (Nat.cast_nonneg m) (two_zpow_pos e).le)

/-- What a float stands for has at most 53 significant bits. -/
theorem isBinary_of_value? {x : Float} {p : ℚ} (h : value? x = some p) : IsBinary p := by
  have hfinite : x.isFinite = true := by
    show x.toModel.unpack.isFinite = true
    rw [value?] at h
    cases hx : x.toModel.unpack <;> rw [hx] at h <;> first | rfl | cases h
  obtain ⟨m, e, hform, hm, -, -⟩ := form_of_isFinite hfinite
  rw [form_eq_magnitude] at hform
  rw [value?] at h
  cases hx : x.toModel.unpack with
  | zero s =>
    rw [hx] at h
    cases h
    exact ⟨0, 0, by norm_num, by norm_num⟩
  | finite s m' e' hpos =>
    rw [hx] at h hform
    cases hform
    refine ⟨m, e, hm, ?_⟩
    cases s <;> cases h
    · rw [abs_neg, abs_mantissa]
    · exact abs_mantissa m e
  | infinity s =>
    rw [hx] at h
    cases h
  | notANumber =>
    rw [hx] at h
    cases h

namespace IsBinary

variable {p : ℚ}

theorem neg (h : IsBinary p) : IsBinary (-p) := by
  obtain ⟨j, t, hj, habs⟩ := h
  exact ⟨j, t, hj, (abs_neg p).trans habs⟩

theorem of_natAbs_le {n : ℤ} (h : n.natAbs ≤ 2 ^ 53) : IsBinary n := by
  have habs : |(n : ℚ)| = (n.natAbs : ℕ) := by rw [Nat.cast_natAbs, Int.cast_abs]
  rcases Nat.lt_or_ge n.natAbs (2 ^ 53) with hlt | hge
  · exact ⟨n.natAbs, 0, hlt, by rw [habs, zpow_zero, mul_one]⟩
  · have heq : n.natAbs = 2 ^ 53 := by omega
    refine ⟨1, 53, by norm_num, ?_⟩
    rw [habs, heq]
    norm_num

/-- No number with so many bits lies strictly between two neighbours. -/
theorem le_or_le (h : IsBinary p) {m : ℕ} (hm : 2 ^ 52 ≤ m) (e : ℤ) :
    p ≤ m * 2 ^ e ∨ (m + 1) * 2 ^ e ≤ p := by
  obtain ⟨j, t, hj, habs⟩ := h
  have hpos := two_zpow_pos e
  rcases le_or_gt p 0 with hneg | hp
  · exact .inl (le_trans hneg (mul_nonneg (Nat.cast_nonneg m) hpos.le))
  rw [abs_of_pos hp] at habs
  subst habs
  rcases le_or_gt e t with hle | hlt
  -- a multiple of the unit is at one of the neighbours or beyond
  · obtain ⟨k, rfl⟩ : ∃ k : ℕ, t = e + k := ⟨(t - e).toNat, by omega⟩
    rw [RoundsTo.mul_zpow_add]
    rcases Nat.lt_or_ge m (j * 2 ^ k) with hgt | hle
    · right
      exact mul_le_mul_of_nonneg_right (by exact_mod_cast hgt) hpos.le
    · left
      exact mul_le_mul_of_nonneg_right (by exact_mod_cast hle) hpos.le
  -- with a smaller exponent it is smaller than both
  · left
    have hj' : (j : ℚ) ≤ 2 ^ (53 : ℤ) := by exact_mod_cast hj.le
    have hm' : (2 : ℚ) ^ (52 : ℤ) ≤ m := by exact_mod_cast hm
    calc (j : ℚ) * 2 ^ t ≤ 2 ^ (53 : ℤ) * 2 ^ t :=
          mul_le_mul_of_nonneg_right hj' (two_zpow_pos t).le
      _ = 2 ^ (53 + t) := (zpow_add₀ (by norm_num) _ _).symm
      _ ≤ 2 ^ (52 + e) := zpow_le_zpow_right₀ (by norm_num) (by omega)
      _ = 2 ^ (52 : ℤ) * 2 ^ e := zpow_add₀ (by norm_num) _ _
      _ ≤ m * 2 ^ e := mul_le_mul_of_nonneg_right hm' hpos.le

end IsBinary

/-! ## Nearest floats -/

/-- A float stands for the number that is nearest to another, among all with at most 53 significant
bits. Where one of the others is as near, the mantissa is even. -/
structure Nearest (v : ℚ) (x : Float) (q : ℚ) : Prop where
  value_eq : value? x = some q
  nearest : ∀ p, IsBinary p → |v - q| ≤ |v - p|
  even : ∀ p, IsBinary p → p ≠ q → |v - p| = |v - q| → ∃ m e, form x = .finite m e ∧ m % 2 = 0

/-- A float is nearest to the number that it stands for. -/
theorem nearest_self {v : ℚ} {x : Float} (h : value? x = some v) : Nearest v x v := by
  refine ⟨h, fun p _ => ?_, fun p _ hne heq => ?_⟩
  · rw [sub_self, abs_zero]
    exact abs_nonneg _
  · rw [sub_self, abs_zero, abs_eq_zero, sub_eq_zero] at heq
    exact absurd heq.symm hne

/-- A number that has few enough bits is not changed. -/
theorem Nearest.eq_of_isBinary {v q : ℚ} {x : Float} (h : Nearest v x q) (hv : IsBinary v) :
    q = v := by
  have hle := h.nearest v hv
  rw [sub_self, abs_zero] at hle
  exact (sub_eq_zero.mp (abs_nonpos_iff.mp hle)).symm

theorem value?_normal {m : ℕ} {e : ℤ} (h : IsNormal m e) :
    value? (normal m e h.pos) = some ((m : ℚ) * 2 ^ e) := by
  rw [value?, unpack_normal h]
  rfl

/-- The opposite of a float is nearest to the opposite number. -/
theorem Nearest.neg {v q : ℚ} {m : ℕ} {e : ℤ} (h : IsNormal m e)
    (hnearest : Nearest v (normal m e h.pos) q) : Nearest (-v) (-normal m e h.pos) (-q) := by
  have hvalue : q = m * 2 ^ e :=
    Option.some.inj (hnearest.value_eq.symm.trans (value?_normal h))
  have hunpack : (-normal m e h.pos).toModel.unpack = .finite .negative m e h.pos := by
    have hneg : (-normal m e h.pos).toModel.unpack = UnpackedFloat.unpack Format.binary64
      (UnpackedFloat.pack Format.binary64 (normal m e h.pos).toModel.unpack.neg) := rfl
    rw [hneg, unpack_normal h]
    exact unpack_pack .negative h
  have habs : ∀ p : ℚ, |-v - p| = |v - -p| := fun p => by
    rw [← abs_neg, neg_sub, sub_neg_eq_add, sub_neg_eq_add, add_comm]
  refine ⟨?_, fun p hp => ?_, fun p hp hne heq => ?_⟩
  · rw [value?, hunpack, hvalue]
    rfl
  · rw [habs, habs, neg_neg]
    exact hnearest.nearest _ hp.neg
  · rw [habs, habs, neg_neg] at heq
    obtain ⟨m', e', hform, heven⟩ :=
      hnearest.even _ hp.neg (fun h => hne (neg_eq_iff_eq_neg.mp h)) heq
    refine ⟨m', e', ?_, heven⟩
    rw [form_eq_magnitude, hunpack]
    rw [form_normal h] at hform
    exact hform

/-! ## Rounding to even -/

/-- What is shifted out is told apart by its highest bit and whether any other bit is set. -/
theorem shiftRight_succ (m k : ℕ) : ExtendedMantissa.mk m false false >>> (k + 1) =
    ⟨m / 2 ^ (k + 1), m / 2 ^ k % 2 != 0, m % 2 ^ k != 0⟩ := by
  induction k with
  | zero =>
    show ExtendedMantissa.mk (m / 2) (m % 2 != 0) false = _
    simp [Nat.mod_one]
  | succ k ih =>
    show (ExtendedMantissa.mk m false false >>> (k + 1)).shiftRightOne = _
    rw [ih, ExtendedMantissa.shiftRightOne]
    have hmod := Nat.mod_pow_succ (x := m) (b := 2) (k := k)
    have hpow := Nat.two_pow_pos k
    have hsticky : (m / 2 ^ k % 2 != 0 || m % 2 ^ k != 0) = (m % 2 ^ (k + 1) != 0) := by
      rw [hmod, Bool.eq_iff_iff]
      simp only [Bool.or_eq_true, bne_iff_ne, ne_eq, Nat.add_eq_zero_iff, Nat.mul_eq_zero]
      omega
    rw [hsticky, Nat.div_div_eq_div_mul, ← Nat.pow_succ]

/-- What is shifted out is rounded by at most half a unit of what is kept, and by half a unit to an
even mantissa. It is a bit that stands for half a unit, and what is below that bit. -/
theorem roundedMantissa_spec {a b c u : ℕ} (hb : b < 2) (hc : c < u) :
    let r := (ExtendedMantissa.mk a (b != 0) (c != 0)).roundedMantissa
    let m : ℤ := a * (2 * u) + b * u + c
    2 * |m - r * (2 * u)| ≤ 2 * u ∧ (2 * |m - r * (2 * u)| = 2 * u → r % 2 = 0) := by
  intro r m
  have hdiff : ∀ d : ℕ, r = a + d → m - r * (2 * u) = b * u + c - d * (2 * u) := by
    intro d hd
    rw [hd]
    push_cast
    ring
  -- below a half it is left out, above a half it adds a unit, and a half goes to the even side
  obtain rfl | rfl : b = 0 ∨ b = 1 := by omega
  · have hdown : r = a + 0 := by
      show (ExtendedMantissa.mk a false (c != 0)).roundedMantissa = a + 0
      cases c != 0 <;> rfl
    have harg : ((0 : ℕ) : ℤ) * u + c - (0 : ℕ) * (2 * u) = c := by push_cast; ring
    rw [hdiff 0 hdown, harg, Nat.abs_cast]
    omega
  by_cases hzero : c = 0
  · subst hzero
    have hhalf : r = a + a % 2 := rfl
    have harg : ((1 : ℕ) : ℤ) * u + (0 : ℕ) - (a % 2 : ℕ) * (2 * u) =
        u - (a % 2 : ℕ) * (2 * u) := by
      push_cast
      ring
    rw [hdiff _ hhalf, harg]
    refine ⟨?_, fun _ => by omega⟩
    obtain heven | hodd : a % 2 = 0 ∨ a % 2 = 1 := by omega
    · rw [heven, abs_of_nonneg (by push_cast; omega)]
      push_cast
      omega
    · rw [hodd, abs_of_nonpos (by push_cast; omega)]
      push_cast
      omega
  · have hup : r = a + 1 := by
      have hsticky : (c != 0) = true := bne_iff_ne.mpr hzero
      show (ExtendedMantissa.mk a true (c != 0)).roundedMantissa = a + 1
      rw [hsticky]
      rfl
    have harg : ((1 : ℕ) : ℤ) * u + c - (1 : ℕ) * (2 * u) = -(u - c) := by push_cast; ring
    rw [hdiff 1 hup, harg, abs_neg, abs_of_nonneg (by omega)]
    omega

/-- A mantissa is rounded by at most half a unit of what is kept, and by half a unit to an even
one. -/
theorem roundedMantissa_near (m k : ℕ) :
    let r := (ExtendedMantissa.mk m false false >>> (k + 1)).roundedMantissa
    2 * |(m : ℤ) - r * 2 ^ (k + 1)| ≤ 2 ^ (k + 1) ∧
      (2 * |(m : ℤ) - r * 2 ^ (k + 1)| = 2 ^ (k + 1) → r % 2 = 0) := by
  have hsplit : (m : ℤ) = (m / 2 ^ (k + 1) : ℕ) * (2 * (2 ^ k : ℕ)) +
      (m / 2 ^ k % 2 : ℕ) * (2 ^ k : ℕ) + (m % 2 ^ k : ℕ) := by
    have hdiv := Nat.div_add_mod m (2 ^ (k + 1))
    rw [Nat.mod_pow_succ] at hdiv
    have hcast : ((2 ^ (k + 1) * (m / 2 ^ (k + 1)) + (m % 2 ^ k + 2 ^ k * (m / 2 ^ k % 2)) : ℕ) : ℤ)
      = m := congrArg _ hdiv
    rw [← hcast]
    push_cast
    ring
  have hpow : (2 : ℤ) ^ (k + 1) = 2 * (2 ^ k : ℕ) := by
    push_cast
    ring
  have hspec := roundedMantissa_spec (a := m / 2 ^ (k + 1))
    (Nat.mod_lt (m / 2 ^ k) two_pos) (Nat.mod_lt m (Nat.two_pow_pos k))
  rw [← hsplit] at hspec
  rw [shiftRight_succ, hpow]
  exact hspec

/-- What is rounded to a neighbour by at most half a unit is nearest to it. Another number is as
near only where that is half a unit away. -/
theorem abs_sub_le_of_isBinary {v : ℚ} {m r : ℕ} {e : ℤ} (hm : 2 ^ 52 ≤ m)
    (hle : (m : ℚ) * 2 ^ e ≤ v) (hlt : v < (m + 1) * 2 ^ e) (hr : m ≤ r) (hr' : r ≤ m + 1)
    (hhalf : 2 * |v - r * 2 ^ e| ≤ 2 ^ e) {p : ℚ} (hp : IsBinary p) :
    |v - r * 2 ^ e| ≤ |v - p| ∧
      (p ≠ r * 2 ^ e → |v - p| = |v - r * 2 ^ e| → 2 * |v - r * 2 ^ e| = 2 ^ e) := by
  obtain rfl | rfl : r = m ∨ r = m + 1 := by omega
  · rw [abs_of_nonneg (by linarith)] at hhalf ⊢
    rcases hp.le_or_le hm e with hlow | hhigh
    · rw [abs_of_nonneg (by linarith)]
      exact ⟨by linarith, fun hne heq => absurd (by linarith) hne⟩
    · rw [abs_of_nonpos (by linarith)]
      exact ⟨by linarith, fun _ heq => by linarith⟩
  · push_cast at hhalf ⊢
    rw [abs_of_nonpos (by linarith)] at hhalf ⊢
    rcases hp.le_or_le hm e with hlow | hhigh
    · rw [abs_of_nonneg (by linarith)]
      exact ⟨by linarith, fun _ heq => by linarith⟩
    · rw [abs_of_nonpos (by linarith)]
      exact ⟨by linarith, fun hne heq => absurd (by linarith) hne⟩

/-- A mantissa with more bits than are kept is rounded to the nearest float. -/
theorem exists_nearest_round {m : ℕ} {e : ℤ} (hm : 53 ≤ m.log2) (hlow : -1074 ≤ e + m.log2 - 52)
    (hhigh : e + m.log2 - 52 ≤ 970) : ∃ m' e', ∃ h : IsNormal m' e',
      roundWithAccuracy Format.binary64 .positive m e .exact = .finite .positive m' e' h.pos ∧
        Nearest (m * 2 ^ e) (normal m' e' h.pos) (m' * 2 ^ e') := by
  obtain ⟨m', e', hnormal, hvalue, heven, hround⟩ :=
    roundWithAccuracy_eq .exact (by omega) hlow hhigh
  obtain ⟨hbelow, -⟩ := kept_bounds (m := m) (by omega)
  have hle := le_roundedMantissa (kept m .exact)
  have hge := roundedMantissa_le (kept m .exact)
  rw [mantissa_kept] at hle hge
  obtain ⟨k, hk⟩ : ∃ k, m.log2 - 52 = k + 1 := ⟨m.log2 - 53, by omega⟩
  have hkept : kept m .exact = ExtendedMantissa.mk m false false >>> (k + 1) := by
    rw [kept, hk]
    rfl
  obtain ⟨hnear, htie⟩ := roundedMantissa_near m k
  rw [← hkept] at hnear htie
  generalize (kept m .exact).roundedMantissa = r at hvalue heven hle hge hnear htie
  rw [hk] at hbelow hle hge
  have hpos := two_zpow_pos e
  -- a unit of what is kept is `2 ^ (k + 1)` units of the mantissa
  have hunit : (2 : ℚ) ^ (e + m.log2 - 52) = 2 ^ (k + 1) * 2 ^ e := by
    rw [← zpow_natCast, ← zpow_add₀ (by norm_num)]
    congr 1
    omega
  have hfloor : ((m / 2 ^ (k + 1) : ℕ) : ℚ) * 2 ^ (k + 1) ≤ m := by
    exact_mod_cast Nat.div_mul_le_self m (2 ^ (k + 1))
  have hceil : (m : ℚ) < ((m / 2 ^ (k + 1) : ℕ) + 1) * 2 ^ (k + 1) := by
    exact_mod_cast Nat.lt_mul_of_div_lt (Nat.lt_succ_self _) (Nat.two_pow_pos (k + 1))
  have hdiff : 2 * |(m : ℚ) * 2 ^ e - r * 2 ^ (e + m.log2 - 52)| =
      (2 * |(m : ℤ) - r * 2 ^ (k + 1)| : ℤ) * 2 ^ e := by
    rw [hunit, ← mul_assoc, ← sub_mul, abs_mul, abs_of_pos hpos]
    push_cast
    ring
  have hhalf : 2 * |(m : ℚ) * 2 ^ e - r * 2 ^ (e + m.log2 - 52)| ≤ 2 ^ (e + m.log2 - 52) := by
    rw [hdiff, hunit]
    exact mul_le_mul_of_nonneg_right (by exact_mod_cast hnear) hpos.le
  have hnearest := fun p hp => abs_sub_le_of_isBinary (v := m * 2 ^ e) (p := p) hbelow
    (by rw [hunit, ← mul_assoc]; exact mul_le_mul_of_nonneg_right hfloor hpos.le)
    (by rw [hunit, ← mul_assoc]; exact mul_lt_mul_of_pos_right hceil hpos) hle hge hhalf hp
  rw [← hvalue] at hnearest hdiff
  refine ⟨m', e', hnormal, hround, value?_normal hnormal, fun p hp => (hnearest p hp).1,
    fun p hp hne heq => ⟨m', e', form_normal hnormal, heven (htie ?_)⟩⟩
  have hexact := (hnearest p hp).2 hne heq
  rw [hdiff, hunit] at hexact
  exact_mod_cast mul_right_cancel₀ hpos.ne' hexact

/-! ## Integers -/

/-- An integer that has more bits than a float is rounded with zeros behind it. -/
theorem ofScientific_eq_round {n : ℕ} (hn : 2 ^ 53 ≤ n) : Float.ofScientific n false 0 =
    .ofModel (.pack (roundWithAccuracy Format.binary64 .positive (n * 2 ^ 53) (-53) .exact)) := by
  have hne : n ≠ 0 := by omega
  have hmodel : UnpackedFloat.ofScientific Format.binary64 n 0 =
      roundWithAccuracy Format.binary64 .positive (n * 2 ^ 53) (-53) .exact := by
    have hbits : Format.binary64.mantissaBits = 53 := rfl
    have hone : 10 ^ (0 : Int).toNat = 1 := rfl
    have hlarge : ¬ (0 : Int) > 2 ^ 11 := by omega
    have hsmall : ¬ (0 : Int) < -(2 ^ 11 + n.log2) := by omega
    rw [UnpackedFloat.ofScientific, dif_neg hne, if_neg hlarge, if_neg hsmall, if_pos le_rfl,
      UnpackedFloat.mul, hbits, hone, Nat.mul_one, Nat.shiftLeft_eq, Int.add_zero]
    rfl
  rw [← hmodel, Float.ofScientific, dif_neg (by omega)]
  rfl

/-- A positive integer becomes the nearest float. -/
theorem exists_nearest_natCast {n : ℕ} (hn : 0 < n) (hlt : n < 2 ^ 64) :
    ∃ m e, ∃ h : IsNormal m e, nearestFloat n 0 = normal m e h.pos ∧
      Nearest n (normal m e h.pos) (m * 2 ^ e) := by
  have hdigits : digitCount n ≤ 20 := digitCount_le_of_lt (by decide) (by omega)
  have hfloat : nearestFloat n 0 = Float.ofScientific n false 0 := by
    have hne : ¬ (n == 0) = true := by
      rw [beq_iff_eq]
      omega
    rw [nearestFloat, if_neg hne]
    dsimp only
    rw [if_neg (by omega), if_neg (by omega)]
    rfl
  rw [hfloat]
  rcases Nat.lt_or_ge n (2 ^ 53) with hfew | hmany
  · obtain ⟨m, e, h, hx, hvalue⟩ := denotes_toFloat hn hfew
    refine ⟨m, e, h, hx, ?_⟩
    rw [hvalue]
    exact nearest_self (value?_normal h)
  · have hlog : (n * 2 ^ 53).log2 = n.log2 + 53 := by
      rw [← Nat.shiftLeft_eq]
      exact log2_shiftLeft (by omega) 53
    have hlow : 53 ≤ n.log2 := (Nat.le_log2 (by omega)).mpr hmany
    have hhigh : n.log2 < 64 := (Nat.log2_lt (by omega)).mpr hlt
    obtain ⟨m, e, h, hround, hnearest⟩ :=
      exists_nearest_round (m := n * 2 ^ 53) (e := -53) (by omega) (by omega) (by omega)
    have hvalue : ((n * 2 ^ 53 : ℕ) : ℚ) * 2 ^ (-53 : ℤ) = n := by
      push_cast
      rw [mul_assoc]
      norm_num
    rw [hvalue] at hnearest
    refine ⟨m, e, h, ?_, hnearest⟩
    rw [ofScientific_eq_round hmany, hround]
    rfl

/-- An integer of 64 bits becomes the nearest float. -/
theorem exists_nearest_int64 (n : Int64) :
    ∃ q, Nearest n.toInt (Decimal.finite (n < 0) n.toInt.natAbs 0).toFloat q := by
  have hlow := n.le_toInt
  have hhigh := n.toInt_lt
  have hsign : n < 0 ↔ n.toInt < 0 := Int64.lt_iff_toInt_lt
  by_cases hzero : n.toInt = 0
  · have hpos : ¬ n < 0 := by rw [hsign]; omega
    rw [hzero, decide_eq_false hpos]
    exact ⟨0, nearest_self (by rfl)⟩
  obtain ⟨m, e, h, hfloat, hnearest⟩ :=
    exists_nearest_natCast (n := n.toInt.natAbs) (by omega) (by omega)
  by_cases hneg : n < 0
  · have hint : n.toInt = -(n.toInt.natAbs : ℤ) := by rw [hsign] at hneg; omega
    have hcast : (n.toInt : ℚ) = -(n.toInt.natAbs : ℕ) := by exact_mod_cast hint
    rw [hcast, decide_eq_true hneg]
    simp only [Decimal.toFloat, hfloat, if_true]
    exact ⟨_, hnearest.neg h⟩
  · have hint : n.toInt = (n.toInt.natAbs : ℤ) := by rw [hsign] at hneg; omega
    have hcast : (n.toInt : ℚ) = (n.toInt.natAbs : ℕ) :=
      (congrArg Int.cast hint).trans (Int.cast_natCast _)
    rw [hcast, decide_eq_false hneg]
    simp only [Decimal.toFloat, hfloat, Bool.false_eq_true, if_false]
    exact ⟨_, hnearest⟩

end Catalogue.Number
