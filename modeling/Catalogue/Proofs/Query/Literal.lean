import Catalogue.Proofs.Lists.Decisive
import Catalogue.Proofs.Number.Integer
import Catalogue.Query.Numeric
import Mathlib

/-!
# Number literals

A number literal becomes a value of the first kind that reads it. The three kinds of integers read
the same numerals, up to their ranges, so a wider kind leaves nothing to a narrower one behind it.

* `IsNumber` — a text of a kind of number, and its value.
* `read?_eq_some_iff` — a kind reads the texts of that kind.
* `numberValue?_default_short`, `numberValue?_default_long`, `numberValue?_beyond` — what an integer
  in one range or another becomes.
* `numberValue?_ne_int` — a long in front of every int leaves nothing to it.
* `numberValue?_spec` — what becomes of a literal.
-/

namespace Catalogue.Query

open Catalogue.Filter (Value)
open Catalogue.Lists
open Catalogue.Number

/-! ## One kind -/

/-- A text of a kind of number and its value: an integer that it denotes, or a finite float. -/
inductive IsNumber (s : String) : NumberKind → Value → Prop
  | short {a : Int16} (h : IntNumeral s.toList a.toInt) : IsNumber s .short (.short a)
  | int {a : Int32} (h : IntNumeral s.toList a.toInt) : IsNumber s .int (.int a)
  | long {a : Int64} (h : IntNumeral s.toList a.toInt) : IsNumber s .long (.long a)
  | float {x : Single} (h : Single.read? s = some x) (hfinite : x.value.isFinite = true) :
      IsNumber s .float (.float x)
  | double {x : Float} (h : float? s = some x) (hfinite : x.isFinite = true) :
      IsNumber s .double (.double x)

/-- An integer is read by a kind whose width holds what the text denotes. -/
theorem bind_integer?_eq_some_iff {α : Type} {fit : Int → Option α} {toInt : α → Int} {s : String}
    {a : α} (hfit : ∀ n, fit n = some a ↔ toInt a = n) :
    (integer? s).bind fit = some a ↔ IntNumeral s.toList (toInt a) := by
  rw [Option.bind_eq_some_iff, ← integer?_eq_some_iff]
  constructor
  · rintro ⟨n, hn, ha⟩
    rw [(hfit n).mp ha, hn]
  · intro h
    exact ⟨toInt a, h, (hfit _).mpr rfl⟩

/-- A kind reads the texts of that kind, as their values. -/
theorem read?_eq_some_iff {k : NumberKind} {s : String} {v : Value} :
    k.read? s = some v ↔ IsNumber s k v := by
  constructor
  · intro h
    cases k with
    | short =>
      obtain ⟨a, ha, rfl⟩ := Option.map_eq_some_iff.mp h
      exact .short ((bind_integer?_eq_some_iff fun _ => int16?_eq_some_iff).mp ha)
    | int =>
      obtain ⟨a, ha, rfl⟩ := Option.map_eq_some_iff.mp h
      exact .int ((bind_integer?_eq_some_iff fun _ => int32?_eq_some_iff).mp ha)
    | long =>
      obtain ⟨a, ha, rfl⟩ := Option.map_eq_some_iff.mp h
      exact .long ((bind_integer?_eq_some_iff fun _ => int64?_eq_some_iff).mp ha)
    | float =>
      obtain ⟨x, hx, rfl⟩ := Option.map_eq_some_iff.mp h
      obtain ⟨hread, hfinite⟩ := Option.filter_eq_some_iff.mp hx
      exact .float hread hfinite
    | double =>
      obtain ⟨x, hx, rfl⟩ := Option.map_eq_some_iff.mp h
      obtain ⟨hread, hfinite⟩ := Option.filter_eq_some_iff.mp hx
      exact .double hread hfinite
  · intro h
    cases h with
    | short h =>
      rw [NumberKind.read?, (bind_integer?_eq_some_iff fun _ => int16?_eq_some_iff).mpr h]
      rfl
    | int h =>
      rw [NumberKind.read?, (bind_integer?_eq_some_iff fun _ => int32?_eq_some_iff).mpr h]
      rfl
    | long h =>
      rw [NumberKind.read?, (bind_integer?_eq_some_iff fun _ => int64?_eq_some_iff).mpr h]
      rfl
    | float h hfinite =>
      rw [NumberKind.read?, h, Option.filter_some, if_pos hfinite]
      rfl
    | double h hfinite =>
      rw [NumberKind.read?, finite?, h, Option.filter_some, if_pos hfinite]
      rfl

/-! ## The first kind -/

section Order

variable {order : List NumberKind} {s : String} {n : Int}

/-- A literal is read by a kind of the order. -/
theorem isNumber_of_numberValue? {v : Value} (h : numberValue? order s = some v) :
    ∃ k ∈ order, IsNumber (Text.trim s) k v := by
  obtain ⟨k, hk, hread⟩ := List.exists_of_findSome?_eq_some h
  exact ⟨k, hk, read?_eq_some_iff.mp hread⟩

/-- The first kind of an order is tried first. -/
theorem numberValue?_cons_of_isNumber {k : NumberKind} {v : Value}
    (h : IsNumber (Text.trim s) k v) : numberValue? (k :: order) s = some v := by
  rw [numberValue?, List.findSome?_cons, read?_eq_some_iff.mpr h]

theorem numberValue?_cons_of_not_isNumber {k : NumberKind} (h : ∀ v, ¬ IsNumber (Text.trim s) k v) :
    numberValue? (k :: order) s = numberValue? order s := by
  have hnone : k.read? (Text.trim s) = none := by
    rw [Option.eq_none_iff_forall_ne_some]
    intro v hv
    exact h v (read?_eq_some_iff.mp hv)
  rw [numberValue?, List.findSome?_cons, hnone]
  rfl

/-- The default order makes a short of an integer in range. -/
theorem numberValue?_default_short (h : IntNumeral (Text.trim s).toList n)
    (hrange : -2 ^ 15 ≤ n ∧ n < 2 ^ 15) :
    ∃ a : Int16, a.toInt = n ∧ numberValue? defaultOrder s = some (.short a) := by
  have ha : (Int16.ofInt n).toInt = n := Int16.toInt_ofInt_of_le hrange.1 hrange.2
  refine ⟨Int16.ofInt n, ha, numberValue?_cons_of_isNumber (.short ?_)⟩
  rwa [ha]

/-- The default order makes a long of any other integer in range. -/
theorem numberValue?_default_long (h : IntNumeral (Text.trim s).toList n)
    (hshort : ¬ (-2 ^ 15 ≤ n ∧ n < 2 ^ 15)) (hrange : -2 ^ 63 ≤ n ∧ n < 2 ^ 63) :
    ∃ a : Int64, a.toInt = n ∧ numberValue? defaultOrder s = some (.long a) := by
  have ha : (Int64.ofInt n).toInt = n := Int64.toInt_ofInt_of_le hrange.1 hrange.2
  have hnot : ∀ v, ¬ IsNumber (Text.trim s) .short v := by
    intro v hv
    cases hv with
    | @short a ha =>
      rw [← ha.unique h] at hshort
      exact hshort ⟨a.le_toInt, a.toInt_lt⟩
  refine ⟨Int64.ofInt n, ha, ?_⟩
  rw [defaultOrder, numberValue?_cons_of_not_isNumber hnot]
  refine numberValue?_cons_of_isNumber (.long ?_)
  rwa [ha]

/-- What is an integer of any width is a long as well. -/
theorem IsNumber.exists_long {t : String} {k : NumberKind} {v : Value} (h : IsNumber t k v)
    (hk : k ∈ [NumberKind.short, .int, .long]) : ∃ a : Int64, IntNumeral t.toList a.toInt := by
  cases h with
  | @short a ha =>
    refine ⟨a.toInt64, ?_⟩
    rwa [Int16.toInt_toInt64]
  | @int a ha =>
    refine ⟨a.toInt64, ?_⟩
    rwa [Int32.toInt_toInt64]
  | @long a ha => exact ⟨a, ha⟩
  | float => exact absurd hk (by decide)
  | double => exact absurd hk (by decide)

/-- No integer beyond every range becomes an integer. -/
theorem numberValue?_beyond (h : IntNumeral (Text.trim s).toList n)
    (hrange : ¬ (-2 ^ 63 ≤ n ∧ n < 2 ^ 63)) {v : Value} (hv : numberValue? order s = some v) :
    (∃ x, v = .float x) ∨ ∃ x, v = .double x := by
  obtain ⟨k, -, hk⟩ := isNumber_of_numberValue? hv
  by_cases hinteger : k ∈ [NumberKind.short, .int, .long]
  · obtain ⟨a, ha⟩ := hk.exists_long hinteger
    rw [← ha.unique h] at hrange
    exact absurd ⟨a.le_toInt, a.toInt_lt⟩ hrange
  · cases hk with
    | @float x => exact .inl ⟨x, rfl⟩
    | @double x => exact .inr ⟨x, rfl⟩
    | _ => exact absurd (by decide) hinteger

/-- A long in front of every int leaves nothing to it. -/
theorem numberValue?_ne_int {before after : List NumberKind} (hint : .int ∉ before) (a : Int32) :
    numberValue? (before ++ .long :: after) s ≠ some (.int a) := by
  intro h
  have hof : ∀ k, IsNumber (Text.trim s) k (.int a) → k = .int := by
    intro k hk
    cases hk
    rfl
  rw [numberValue?, List.findSome?_append, Option.or_eq_some_iff] at h
  rcases h with h | ⟨-, h⟩
  · obtain ⟨k, hk, hread⟩ := isNumber_of_numberValue? h
    exact hint (hof k hread ▸ hk)
  · change numberValue? (.long :: after) s = _ at h
    obtain ⟨k, hk, hread⟩ := isNumber_of_numberValue? h
    obtain rfl := hof k hread
    obtain ⟨b, hb⟩ := hread.exists_long (by decide)
    rw [numberValue?_cons_of_isNumber (.long hb)] at h
    cases h

end Order

/-- A literal becomes a value of the first kind that reads it, where an integer is one that the text
denotes and a float is finite. The default order makes a short or a long of every integer in range,
and no order with a long in front of every int makes an int. -/
theorem numberValue?_spec (order : List NumberKind) (s : String) :
    (∀ k v, k.read? (Text.trim s) = some v ↔ IsNumber (Text.trim s) k v) ∧
    (∀ v, numberValue? order s = some v ↔ FirstOf (IsNumber (Text.trim s)) order v) ∧
    (numberValue? order s = none ↔ ∀ k ∈ order, ∀ v, ¬ IsNumber (Text.trim s) k v) ∧
    (∀ n, IntNumeral (Text.trim s).toList n →
      (-2 ^ 15 ≤ n ∧ n < 2 ^ 15 →
        ∃ a : Int16, a.toInt = n ∧ numberValue? defaultOrder s = some (.short a)) ∧
      (¬ (-2 ^ 15 ≤ n ∧ n < 2 ^ 15) → -2 ^ 63 ≤ n ∧ n < 2 ^ 63 →
        ∃ a : Int64, a.toInt = n ∧ numberValue? defaultOrder s = some (.long a)) ∧
      (¬ (-2 ^ 63 ≤ n ∧ n < 2 ^ 63) → ∀ v, numberValue? defaultOrder s = some v →
        (∃ x, v = .float x) ∨ ∃ x, v = .double x)) ∧
    (∀ before after, order = before ++ .long :: after → .int ∉ before →
      ∀ a, numberValue? order s ≠ some (.int a)) := by
  have hread : ∀ k v, k.read? (Text.trim s) = some v ↔ IsNumber (Text.trim s) k v :=
    fun k v => read?_eq_some_iff
  refine ⟨hread, fun v => ?_, ?_, fun n h => ⟨?_, ?_, ?_⟩, ?_⟩
  · exact findSome?_eq_some_iff_firstOf fun k _ => hread k
  · exact findSome?_eq_none_iff_forall fun k _ => hread k
  · exact numberValue?_default_short h
  · exact numberValue?_default_long h
  · exact fun hrange v => numberValue?_beyond h hrange
  · rintro before after rfl hint
    exact numberValue?_ne_int hint

theorem numberValue?_spec_zeros :
    ∃ a : Int64, a.toInt = 40000 ∧ numberValue? defaultOrder " +0040000 " = some (.long a) := by
  have hnumeral : IntNumeral (Text.trim " +0040000 ").toList 40000 :=
    integerChars?_eq_some_iff.mp (by decide)
  obtain ⟨-, -, -, hdefault, -⟩ := numberValue?_spec defaultOrder " +0040000 "
  exact (hdefault 40000 hnumeral).2.1 (by decide) (by decide)

end Catalogue.Query
