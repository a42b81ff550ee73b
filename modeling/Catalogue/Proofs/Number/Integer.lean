import Catalogue.Number.Numeral
import Mathlib.Data.List.Induction

/-!
# Integers and their numerals

An integer numeral is an optional sign and at least one decimal digit; every digit makes the digits
before it worth ten times as much. Such numerals and no other texts are read, as the integers that
they denote, however many digits they have. An integer becomes a number of a fixed width exactly
when it is one.

* `int16?_eq_some_iff` and its like — the integers that a width holds.
* `Digits`, `IntNumeral` — digits and signed digits, with what they denote.
* `integerChars?_eq_some_iff` — a text is read as the integer that it denotes.
-/

namespace Catalogue.Number

open Catalogue.Text

/-! ## Integers of fixed width -/

/-- A width holds the integers in its range, each as one number. -/
theorem fitted_eq_some_iff {α : Type} (ofInt : Int → α) (toInt : α → Int) {low high n : Int}
    {a : α} (hto : ∀ n, low ≤ n → n < high → toInt (ofInt n) = n) (hof : ofInt (toInt a) = a)
    (hlow : low ≤ toInt a) (hhigh : toInt a < high) :
    (if low ≤ n ∧ n < high then some (ofInt n) else none) = some a ↔ toInt a = n := by
  constructor
  · intro h
    split at h
    · next hrange =>
      obtain rfl := Option.some.inj h
      exact hto n hrange.1 hrange.2
    · cases h
  · rintro rfl
    rw [if_pos ⟨hlow, hhigh⟩, hof]

theorem int16?_eq_some_iff {n : Int} {a : Int16} : int16? n = some a ↔ a.toInt = n :=
  fitted_eq_some_iff Int16.ofInt Int16.toInt (fun _ => Int16.toInt_ofInt_of_le)
    (Int16.ofInt_toInt a) a.le_toInt a.toInt_lt

theorem int32?_eq_some_iff {n : Int} {a : Int32} : int32? n = some a ↔ a.toInt = n :=
  fitted_eq_some_iff Int32.ofInt Int32.toInt (fun _ => Int32.toInt_ofInt_of_le)
    (Int32.ofInt_toInt a) a.le_toInt a.toInt_lt

theorem int64?_eq_some_iff {n : Int} {a : Int64} : int64? n = some a ↔ a.toInt = n :=
  fitted_eq_some_iff Int64.ofInt Int64.toInt (fun _ => Int64.toInt_ofInt_of_le)
    (Int64.ofInt_toInt a) a.le_toInt a.toInt_lt

theorem uint16?_eq_some_iff {n : Int} {a : UInt16} : uint16? n = some a ↔ (a.toNat : Int) = n := by
  refine fitted_eq_some_iff (fun m => UInt16.ofNat m.toNat) (fun a => a.toNat)
    (fun m hlow hhigh => ?_) ?_ (Int.natCast_nonneg a.toNat) ?_
  · rw [UInt16.toNat_ofNat_of_lt' (by show _ < 2 ^ 16; omega), Int.toNat_of_nonneg hlow]
  · rw [Int.toNat_natCast, UInt16.ofNat_toNat]
  · have hlt : a.toNat < 2 ^ 16 := a.toNat_lt
    omega

theorem uint32?_eq_some_iff {n : Int} {a : UInt32} : uint32? n = some a ↔ (a.toNat : Int) = n := by
  refine fitted_eq_some_iff (fun m => UInt32.ofNat m.toNat) (fun a => a.toNat)
    (fun m hlow hhigh => ?_) ?_ (Int.natCast_nonneg a.toNat) ?_
  · rw [UInt32.toNat_ofNat_of_lt' (by show _ < 2 ^ 32; omega), Int.toNat_of_nonneg hlow]
  · rw [Int.toNat_natCast, UInt32.ofNat_toNat]
  · have hlt : a.toNat < 2 ^ 32 := a.toNat_lt
    omega

/-! ## Digits -/

/-- Decimal digits and the number that they denote. -/
inductive Digits : List Char → Nat → Prop
  | single (d : Fin 10) : Digits [Nat.digitChar d] d
  | snoc {cs : List Char} {n : Nat} (h : Digits cs n) (d : Fin 10) :
      Digits (cs ++ [Nat.digitChar d]) (10 * n + d)

theorem isDigit_digitChar (d : Fin 10) : isDigit (Nat.digitChar d) = true := by
  revert d
  decide

theorem digitValue_digitChar (d : Fin 10) : digitValue (Nat.digitChar d) = d := by
  revert d
  decide

theorem exists_digitChar {c : Char} (h : isDigit c = true) : ∃ d : Fin 10, Nat.digitChar d = c := by
  have hchar : ∀ d : Fin 10, Nat.digitChar d = Char.ofNat (48 + d) := by decide
  rw [isDigit, Bool.and_eq_true, decide_eq_true_iff, decide_eq_true_iff, Char.le_def, Char.le_def]
    at h
  have hlow : 48 ≤ c.toNat := h.1
  have hhigh : c.toNat ≤ 57 := h.2
  refine ⟨⟨c.toNat - 48, by omega⟩, ?_⟩
  rw [hchar]
  show Char.ofNat (48 + (c.toNat - 48)) = c
  rw [Nat.add_sub_cancel' hlow, Char.ofNat_toNat]

theorem digitsValue_snoc (cs : List Char) (c : Char) :
    digitsValue (cs ++ [c]) = 10 * digitsValue cs + digitValue c := by
  rw [digitsValue, List.foldl_append]
  rfl

namespace Digits

variable {cs : List Char} {n : Nat}

theorem ne_nil (h : Digits cs n) : cs ≠ [] := by
  cases h <;> simp

theorem isDigit_of_mem (h : Digits cs n) : ∀ c ∈ cs, isDigit c = true := by
  induction h with
  | single d => exact List.forall_mem_singleton.mpr (isDigit_digitChar d)
  | snoc _ d ih =>
    exact List.forall_mem_append.mpr ⟨ih, List.forall_mem_singleton.mpr (isDigit_digitChar d)⟩

theorem digitsValue_eq_of (h : Digits cs n) : digitsValue cs = n := by
  induction h with
  | single d =>
    show 10 * 0 + digitValue (Nat.digitChar d) = d
    rw [digitValue_digitChar, Nat.mul_zero, Nat.zero_add]
  | snoc _ d ih => rw [digitsValue_snoc, ih, digitValue_digitChar]

/-- Digits denote a number. -/
theorem of_isDigit (hne : cs ≠ []) (h : ∀ c ∈ cs, isDigit c = true) :
    Digits cs (digitsValue cs) := by
  induction cs using List.reverseRecOn with
  | nil => exact absurd rfl hne
  | append_singleton cs c ih =>
    obtain ⟨hcs, hc⟩ := List.forall_mem_append.mp h
    obtain ⟨d, rfl⟩ := exists_digitChar (hc c (List.mem_singleton_self c))
    rw [digitsValue_snoc, digitValue_digitChar]
    by_cases hnil : cs = []
    · subst hnil
      show Digits [Nat.digitChar d] (10 * 0 + d)
      rw [Nat.mul_zero, Nat.zero_add]
      exact .single d
    · exact .snoc (ih hnil hcs) d

end Digits

/-- Digits are read as the number that they denote. -/
theorem natural?_eq_some_iff {cs : List Char} {n : Nat} : natural? cs = some n ↔ Digits cs n := by
  unfold natural?
  constructor
  · intro h
    split at h
    · next hcond =>
      rw [Bool.and_eq_true, Bool.not_eq_true', List.isEmpty_eq_false_iff, List.all_eq_true] at hcond
      obtain rfl := Option.some.inj h
      exact .of_isDigit hcond.1 hcond.2
    · cases h
  · intro h
    have hcond : (!cs.isEmpty && cs.all isDigit) = true := by
      rw [Bool.and_eq_true, Bool.not_eq_true', List.isEmpty_eq_false_iff, List.all_eq_true]
      exact ⟨h.ne_nil, h.isDigit_of_mem⟩
    rw [if_pos hcond, h.digitsValue_eq_of]

/-! ## Signs -/

/-- An integer numeral and the integer that it denotes. -/
inductive IntNumeral : List Char → Int → Prop
  | unsigned {cs : List Char} {n : Nat} (h : Digits cs n) : IntNumeral cs n
  | plus {cs : List Char} {n : Nat} (h : Digits cs n) : IntNumeral ('+' :: cs) n
  | minus {cs : List Char} {n : Nat} (h : Digits cs n) : IntNumeral ('-' :: cs) (-n)

/-- No sign is a digit. -/
theorem not_digits_cons {c : Char} (hc : isDigit c = false) (cs : List Char) (n : Nat) :
    ¬ Digits (c :: cs) n := by
  intro h
  have hdigit := h.isDigit_of_mem c List.mem_cons_self
  rw [hc] at hdigit
  cases hdigit

/-- A text is read as the integer that it denotes. -/
theorem integerChars?_eq_some_iff {cs : List Char} {n : Int} :
    integerChars? cs = some n ↔ IntNumeral cs n := by
  constructor
  · intro h
    unfold integerChars? at h
    split at h
    · next digits =>
      cases hdigits : natural? digits with
      | none => rw [hdigits] at h; cases h
      | some m =>
        rw [hdigits] at h
        obtain rfl := Option.some.inj h
        exact .minus (natural?_eq_some_iff.mp hdigits)
    · next digits =>
      obtain ⟨m, hdigits, rfl⟩ := Option.map_eq_some_iff.mp h
      exact .plus (natural?_eq_some_iff.mp hdigits)
    · obtain ⟨m, hdigits, rfl⟩ := Option.map_eq_some_iff.mp h
      exact .unsigned (natural?_eq_some_iff.mp hdigits)
  · intro h
    cases h with
    | minus h => rw [integerChars?, natural?_eq_some_iff.mpr h]; rfl
    | plus h => rw [integerChars?, natural?_eq_some_iff.mpr h]; rfl
    | unsigned h =>
      unfold integerChars?
      split
      · exact absurd h (not_digits_cons (by decide) _ _)
      · exact absurd h (not_digits_cons (by decide) _ _)
      · rw [natural?_eq_some_iff.mpr h]
        rfl

theorem integer?_eq_some_iff {s : String} {n : Int} :
    integer? s = some n ↔ IntNumeral s.toList n :=
  integerChars?_eq_some_iff

/-- A numeral denotes one integer. -/
theorem IntNumeral.unique {cs : List Char} {m n : Int} (hm : IntNumeral cs m)
    (hn : IntNumeral cs n) : m = n :=
  Option.some.inj
    ((integerChars?_eq_some_iff.mpr hm).symm.trans (integerChars?_eq_some_iff.mpr hn))

end Catalogue.Number
