import Mathlib

/-!
# The order of binary64 numbers

Two numbers of which neither is less than the other are equal, unless one of them is no number or
they are the two zeros. Numbers are compared by their places in one linear order, in which the two
zeros share a place and no number has none.

* `lt_asymm` — no two numbers are each less than the other.
* `eq_of_not_lt` — equality from the order.
* `lt_iff_place`, `le_iff_place`, `beq_iff_place` — comparisons are those of the places.
-/

namespace Catalogue.Number

open Float.Model Float.Model.UnpackedFloat

/-! ## Unpacked numbers -/

theorem compare_parts_swap (e₁ e₂ : Int) (m₁ m₂ : Nat) :
    (compare e₂ e₁).then (compare m₂ m₁) = ((compare e₁ e₂).then (compare m₁ m₂)).swap := by
  rw [Ordering.swap_then, ← Std.OrientedOrd.eq_swap, ← Std.OrientedOrd.eq_swap]

/-- The comparison the other way around has the opposite outcome. -/
theorem compare_swap (a b : UnpackedFloat) : b.compare a = (a.compare b).map Ordering.swap := by
  cases a with
  | notANumber => cases b <;> rfl
  | infinity s => cases s <;> cases b with
    | infinity t => cases t <;> rfl
    | _ => rfl
  | zero s => cases b with
    | infinity t => cases t <;> rfl
    | finite t m e hm => cases t <;> rfl
    | _ => rfl
  | finite s m e hm => cases b with
    | infinity t => cases s <;> cases t <;> rfl
    | notANumber => cases s <;> rfl
    | zero t => cases s <;> rfl
    | finite t m' e' hm' =>
      have hswap := compare_parts_swap e e' m m'
      cases s <;> cases t <;> simp [UnpackedFloat.compare, hswap]

/-- Only no number cannot be compared. -/
theorem compare_isSome {a b : UnpackedFloat} (ha : a ≠ .notANumber) (hb : b ≠ .notANumber) :
    (a.compare b).isSome = true := by
  cases a with
  | notANumber => exact absurd rfl ha
  | infinity s => cases s <;> cases b with
    | notANumber => exact absurd rfl hb
    | _ => rfl
  | zero s => cases b with
    | notANumber => exact absurd rfl hb
    | infinity t => cases t <;> rfl
    | finite t m e hm => cases t <;> rfl
    | _ => rfl
  | finite s m e hm => cases b with
    | notANumber => exact absurd rfl hb
    | infinity t => cases s <;> cases t <;> rfl
    | zero t => cases s <;> rfl
    | finite t m' e' hm' => cases s <;> cases t <;> rfl

/-! ## Floats -/

variable {x y : Float}

theorem lt_iff_compare : x < y ↔ x.toModel.unpack.compare y.toModel.unpack = some .lt := by
  show decide (x.toModel < y.toModel) = true ↔ _
  rw [decide_eq_true_iff]
  show (UnpackedFloat.compare _ _ == some .lt) = true ↔ _
  rw [beq_iff_eq]

/-- No two numbers are each less than the other. -/
theorem lt_asymm (h : x < y) : ¬ y < x := by
  rw [lt_iff_compare] at h ⊢
  rw [compare_swap, h]
  decide

theorem lt_irrefl (x : Float) : ¬ x < x := fun h => lt_asymm h h

/-- Only the two zeros are equal as numbers and not the same. -/
theorem eq_of_beq (h : (x == y) = true) (hx : x ≠ -0) (hy : y ≠ -0) : x = y := by
  obtain ⟨-, -, h⟩ := Float.beq_iff_ne_nan_and_eq.mp h
  rcases h with h | ⟨-, h⟩ | ⟨h, -⟩
  · exact h
  · exact absurd h hy
  · exact absurd h hx

/-- Apart from no number and the negative zero, numbers are equal when neither is less. -/
theorem eq_of_not_lt (hx : x.isNaN = false) (hy : y.isNaN = false) (hx' : x ≠ -0) (hy' : y ≠ -0)
    (hlt : ¬ x < y) (hgt : ¬ y < x) : x = y := by
  have hne : ∀ {z : Float}, z.isNaN = false → z.toModel.unpack ≠ .notANumber := by
    intro z hz heq
    rw [Float.isNaN, Float.Model.isNaN, heq] at hz
    cases hz
  refine eq_of_beq ?_ hx' hy'
  show (UnpackedFloat.compare _ _ == some .eq) = true
  have hsome := compare_isSome (hne hx) (hne hy)
  rw [lt_iff_compare] at hlt hgt
  rw [compare_swap] at hgt
  cases hcompare : x.toModel.unpack.compare y.toModel.unpack with
  | none => simp [hcompare] at hsome
  | some o => cases o <;> simp_all

/-! ## Places -/

/-- The place of an unpacked number among the others: the side of zero that it lies on, and there
its exponent and its mantissa, which count backwards below zero. -/
def rank : UnpackedFloat → ℤ ×ₗ ℤ ×ₗ ℤ
  | .infinity .negative => toLex (-2, toLex (0, 0))
  | .finite .negative m e _ => toLex (-1, toLex (-e, -m))
  | .zero _ => toLex (0, toLex (0, 0))
  | .finite .positive m e _ => toLex (1, toLex (e, m))
  | .infinity .positive => toLex (2, toLex (0, 0))
  | .notANumber => toLex (0, toLex (0, 0))

/-- On one side of zero the exponents are compared before the mantissas. -/
theorem compare_side (side e₁ e₂ m₁ m₂ : ℤ) :
    compare (toLex (side, toLex (e₁, m₁))) (toLex (side, toLex (e₂, m₂))) =
      (compare e₁ e₂).then (compare m₁ m₂) := by
  simp [Prod.Lex.compare_def, compareLex, compareOn]

theorem compare_neg (m n : ℤ) : compare (-m) (-n) = (compare m n).swap := by
  rw [← Std.OrientedOrd.eq_swap]
  simp only [Int.compare_eq_ite_lt, neg_lt_neg_iff]

theorem compare_cast (m n : ℕ) : compare (m : ℤ) n = compare m n := by
  simp only [Int.compare_eq_ite_lt, Nat.compare_eq_ite_lt, Nat.cast_lt]

/-- Unpacked numbers compare as their places do. -/
theorem compare_eq_rank {a b : UnpackedFloat} (ha : a ≠ .notANumber) (hb : b ≠ .notANumber) :
    a.compare b = some (compare (rank a) (rank b)) := by
  cases a with
  | notANumber => exact absurd rfl ha
  | infinity s => cases s <;> cases b with
    | notANumber => exact absurd rfl hb
    | infinity t => cases t <;> rfl
    | zero t => rfl
    | finite t m e hm => cases t <;> rfl
  | zero s => cases b with
    | notANumber => exact absurd rfl hb
    | infinity t => cases t <;> rfl
    | zero t => rfl
    | finite t m e hm => cases t <;> rfl
  | finite s m e hm => cases b with
    | notANumber => exact absurd rfl hb
    | infinity t => cases s <;> cases t <;> rfl
    | zero t => cases s <;> rfl
    | finite t m' e' hm' =>
      cases s <;> cases t <;>
        simp only [UnpackedFloat.compare, rank, compare_side, compare_neg, compare_cast,
          Ordering.swap_then] <;> rfl

/-- The place of a number among the others. -/
def place (x : Float) : ℤ ×ₗ ℤ ×ₗ ℤ := rank x.toModel.unpack

theorem unpack_eq_notANumber_iff : x.toModel.unpack = .notANumber ↔ x.isNaN = true := by
  rw [Float.isNaN, Float.Model.isNaN]
  cases x.toModel.unpack <;> simp [UnpackedFloat.isNaN]

/-- Numbers compare as their places do, and with no number nothing compares. -/
theorem compare_eq_some_iff {o : Ordering} :
    x.toModel.unpack.compare y.toModel.unpack = some o ↔
      x.isNaN = false ∧ y.isNaN = false ∧ compare (place x) (place y) = o := by
  rw [← Bool.not_eq_true, ← Bool.not_eq_true, ← unpack_eq_notANumber_iff,
    ← unpack_eq_notANumber_iff, place, place]
  generalize x.toModel.unpack = a
  generalize y.toModel.unpack = b
  by_cases ha : a = .notANumber
  · subst ha
    cases b <;> simp [UnpackedFloat.compare]
  · by_cases hb : b = .notANumber
    · subst hb
      cases a with
      | infinity s => cases s <;> simp [UnpackedFloat.compare]
      | finite s m e hm => cases s <;> simp [UnpackedFloat.compare]
      | _ => simp [UnpackedFloat.compare]
    · simp [compare_eq_rank ha hb, ha, hb]

theorem lt_iff_place : x < y ↔ x.isNaN = false ∧ y.isNaN = false ∧ place x < place y := by
  rw [lt_iff_compare, compare_eq_some_iff, compare_lt_iff_lt]

theorem beq_iff_place :
    (x == y) = true ↔ x.isNaN = false ∧ y.isNaN = false ∧ place x = place y := by
  show (UnpackedFloat.compare _ _ == some .eq) = true ↔ _
  rw [beq_iff_eq, compare_eq_some_iff, compare_eq_iff_eq]

theorem le_iff_place : x ≤ y ↔ x.isNaN = false ∧ y.isNaN = false ∧ place x ≤ place y := by
  have hle : x ≤ y ↔ ∃ o : Ordering,
      x.toModel.unpack.compare y.toModel.unpack = some o ∧ o.isLE = true := by
    show decide (x.toModel ≤ y.toModel) = true ↔ _
    rw [decide_eq_true_iff, ← Option.any_eq_true]
    rfl
  rw [hle, ← compare_le_iff_le]
  simp only [compare_eq_some_iff, and_assoc, exists_and_left, exists_eq_left',
    Ordering.isLE_iff_ne_gt, ne_eq]

/-! ## Up to the zeros -/

variable {z : Float}

protected theorem le_refl (h : x.isNaN = false) : x ≤ x := le_iff_place.mpr ⟨h, h, le_rfl⟩

protected theorem le_trans (h : x ≤ y) (h' : y ≤ z) : x ≤ z := by
  obtain ⟨hx, -, hxy⟩ := le_iff_place.mp h
  obtain ⟨-, hz, hyz⟩ := le_iff_place.mp h'
  exact le_iff_place.mpr ⟨hx, hz, hxy.trans hyz⟩

protected theorem le_of_lt (h : x < y) : x ≤ y := by
  obtain ⟨hx, hy, hlt⟩ := lt_iff_place.mp h
  exact le_iff_place.mpr ⟨hx, hy, hlt.le⟩

protected theorem le_of_not_lt (hx : x.isNaN = false) (hy : y.isNaN = false) (h : ¬ y < x) :
    x ≤ y := by
  refine le_iff_place.mpr ⟨hx, hy, not_lt.mp fun hlt => h ?_⟩
  exact lt_iff_place.mpr ⟨hy, hx, hlt⟩

/-- Numbers are equal, the two zeros among them, when each is at most the other. -/
theorem beq_iff_le_and_le : (x == y) = true ↔ x ≤ y ∧ y ≤ x := by
  rw [beq_iff_place, le_iff_place, le_iff_place]
  constructor
  · rintro ⟨hx, hy, h⟩
    exact ⟨⟨hx, hy, h.le⟩, hy, hx, h.ge⟩
  · rintro ⟨⟨hx, hy, h⟩, -, -, h'⟩
    exact ⟨hx, hy, h.antisymm h'⟩

theorem isNaN_of_isFinite (h : x.isFinite = true) : x.isNaN = false := by
  rw [← Bool.not_eq_true, ← unpack_eq_notANumber_iff]
  intro hnan
  rw [Float.isFinite, Float.Model.isFinite, hnan] at h
  cases h

end Catalogue.Number
