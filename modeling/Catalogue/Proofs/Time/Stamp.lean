import Catalogue.Proofs.Number.Reading
import Catalogue.Proofs.Time.Instant
import Catalogue.Time.Reading
import Catalogue.Time.Writing

/-!
# Stamps read back

A stamp is written in fixed widths, so every number of it ends where the next mark begins. The
reader takes the same numbers off the front, one after another.

* `upTo?_padded`, `year?_yearText`, `fraction?_fractionText` — the numbers of a stamp.
* `date?_text`, `clock?_text` — its date and its time of day.
* `stamp?_stamp` — every instant is read back from its stamp.
-/

namespace Catalogue.Time

open Catalogue.Text
open Catalogue.Number

/-! ## Digits -/

section Digits

variable {ds rest : List Char}

theorem upTo?_digits {most : Nat} (hds : AllDigits ds) (hne : ds ≠ []) (hmost : ds.length ≤ most)
    (hrest : EndsDigits rest) : upTo? most (ds ++ rest) = some (digitsValue ds, rest) := by
  rw [upTo?, hds.takeWhile_append hrest, List.take_of_length_le hmost]
  rw [if_neg (by rwa [List.isEmpty_iff]), List.drop_left]

theorem trimStart_cons {c : Char} (h : isBlank c = false) (rest : List Char) :
    trimStart (c :: rest) = c :: rest := by
  rw [trimStart, List.dropWhile_cons_of_neg (by rw [h]; exact Bool.false_ne_true)]

/-- No blank is dropped in front of a digit. -/
theorem trimStart_digits (hds : AllDigits ds) (hne : ds ≠ []) :
    trimStart (ds ++ rest) = ds ++ rest := by
  obtain ⟨c, ds, rfl⟩ := List.exists_cons_of_ne_nil hne
  have hblank : isBlank c = false := (inNumber_of_isDigit (hds c List.mem_cons_self)).isBlank
  rw [List.cons_append, trimStart_cons hblank]

end Digits

/-! ## Padded numbers -/

theorem toList_padded (width n : Nat) : (padded width n).toList =
    List.replicate (width - (Nat.repr n).length) '0' ++ (Nat.repr n).toList := by
  rw [padded, String.toList_append, String.toList_ofList]

theorem allDigits_padded (width n : Nat) : AllDigits (padded width n).toList := by
  rw [toList_padded]
  exact (allDigits_zeros _).append (allDigits_repr n)

theorem digitsValue_padded (width n : Nat) : digitsValue (padded width n).toList = n := by
  rw [toList_padded, digitsValue_zeros_append, digitsValue_repr]

theorem padded_ne_nil (width n : Nat) : (padded width n).toList ≠ [] := by
  rw [toList_padded, Nat.toList_repr]
  exact List.append_ne_nil_of_right_ne_nil _ Nat.toDigits_ne_nil

/-- A number that fits its width is padded to it. -/
theorem length_padded {width n : Nat} (hwidth : 0 < width) (h : n < 10 ^ width) :
    (padded width n).toList.length = width := by
  have hle : (Nat.repr n).length ≤ width := Nat.repr_length n width hwidth h
  rw [toList_padded, List.length_append, List.length_replicate, String.length_toList]
  omega

theorem upTo?_padded {width n : Nat} {rest : List Char} (hwidth : 0 < width) (h : n < 10 ^ width)
    (hrest : EndsDigits rest) : upTo? width ((padded width n).toList ++ rest) = some (n, rest) := by
  rw [upTo?_digits (allDigits_padded width n) (padded_ne_nil width n)
    (length_padded hwidth h).le hrest, digitsValue_padded]

theorem allDigits?_padded (width n : Nat) {rest : List Char} (hrest : EndsDigits rest) :
    allDigits? ((padded width n).toList ++ rest) = some (n, rest) := by
  rw [allDigits?, upTo?_digits (allDigits_padded width n) (padded_ne_nil width n)
    (by rw [List.length_append]; omega) hrest, digitsValue_padded]

theorem pair?_padded {n : Nat} {rest : List Char} (h : n < 100) (hrest : EndsDigits rest) :
    pair? ((padded 2 n).toList ++ rest) = some (n, rest) := by
  rw [pair?, trimStart_digits (allDigits_padded 2 n) (padded_ne_nil 2 n),
    upTo?_padded (by decide) h hrest]

/-! ## Years -/

/-- A year without a sign. -/
theorem year?_padded {n : Nat} {rest : List Char} (h : n < 10000) (hrest : EndsDigits rest) :
    year? ((padded 4 n).toList ++ rest) = some ((n : Int), rest) := by
  have htake := upTo?_padded (by decide : 0 < 4) h hrest
  have hstart := (allDigits_padded 4 n).startsWithDigit (padded_ne_nil 4 n) rest
  rw [year?, trimStart_digits (allDigits_padded 4 n) (padded_ne_nil 4 n)]
  obtain ⟨c, hc, hdigit⟩ := hstart
  split
  · next hsign =>
    rw [hsign] at hc
    obtain rfl := Option.some.inj hc
    cases hdigit
  · next hsign =>
    rw [hsign] at hc
    obtain rfl := Option.some.inj hc
    cases hdigit
  · rw [htake, Option.map_some]

theorem year?_minus (cs : List Char) :
    year? ('-' :: cs) = (allDigits? cs).map fun (n, r) => (-(n : Int), r) := rfl

theorem year?_plus (cs : List Char) :
    year? ('+' :: cs) = (allDigits? cs).map fun (n, r) => ((n : Int), r) := rfl

theorem year?_yearText (year : Int) {rest : List Char} (hrest : EndsDigits rest) :
    year? ((yearText year).toList ++ rest) = some (year, rest) := by
  unfold yearText
  split
  · next hplain =>
    rw [year?_padded (by omega) hrest, Int.toNat_of_nonneg hplain.1]
  · next hsigned =>
    have hminus : "-".toList = ['-'] := rfl
    have hplus : "+".toList = ['+'] := rfl
    rw [String.toList_append, List.append_assoc]
    split
    · next hneg =>
      rw [hminus, List.singleton_append, year?_minus, allDigits?_padded 4 _ hrest, Option.map_some]
      show some (-(year.natAbs : Int), rest) = _
      have hyear : -(year.natAbs : Int) = year := by omega
      rw [hyear]
    · next hneg =>
      rw [hplus, List.singleton_append, year?_plus, allDigits?_padded 4 _ hrest, Option.map_some]
      show some ((year.natAbs : Int), rest) = _
      have hyear : (year.natAbs : Int) = year := by omega
      rw [hyear]

/-! ## Dates and times of day -/

/-- A mark is taken where it stands. -/
theorem mark?_trimStart {c : Char} (h : isBlank c = false) (rest : List Char) :
    mark? c (trimStart (c :: rest)) = some rest := by
  rw [trimStart_cons h, mark?, if_pos (beq_self_eq_true c)]

theorem date?_text (date : Date) {rest : List Char} (hmonth : date.month < 100)
    (hday : date.day < 100) (hrest : EndsDigits rest) :
    date? '-' trimStart ((yearText date.year).toList ++ '-' :: ((padded 2 date.month).toList ++
      '-' :: ((padded 2 date.day).toList ++ rest))) = some (date, rest) := by
  have hmark (rest : List Char) : EndsDigits ('-' :: rest) := endsDigits_cons (by decide) rest
  simp only [date?, year?_yearText _ (hmark _), mark?_trimStart (c := '-') (by decide),
    pair?_padded hmonth (hmark _), pair?_padded hday hrest, Option.bind_eq_bind, Option.bind_some,
    Option.pure_def]

theorem clock?_text {hour minute second : Nat} {rest : List Char} (hhour : hour < 100)
    (hminute : minute < 100) (hsecond : second < 100) (hrest : EndsDigits rest) :
    clock? trimStart ((padded 2 hour).toList ++ ':' :: ((padded 2 minute).toList ++
      ':' :: ((padded 2 second).toList ++ rest))) = some ((hour, minute, second), rest) := by
  have hmark (rest : List Char) : EndsDigits (':' :: rest) := endsDigits_cons (by decide) rest
  simp only [clock?, pair?_padded hhour (hmark _), mark?_trimStart (c := ':') (by decide),
    pair?_padded hminute (hmark _), pair?_padded hsecond hrest, Option.bind_eq_bind,
    Option.bind_some, Option.pure_def]

/-! ## Fractions -/

theorem fraction?_point {ds rest : List Char} (hds : AllDigits ds) (hne : ds ≠ [])
    (hmost : ds.length ≤ 9) (hrest : EndsDigits rest) :
    fraction? ('.' :: (ds ++ rest)) = some (digitsValue ds * 10 ^ (9 - ds.length), rest) := by
  rw [fraction?, hds.takeWhile_append hrest, hds.dropWhile_append hrest,
    if_neg (by rwa [List.isEmpty_iff]), List.take_of_length_le hmost]
  rfl

/-- A fraction that counts in units of the given number of digits. -/
theorem fraction?_padded {width unit nanos : Nat} {rest : List Char} (hwidth : 0 < width)
    (hmost : width ≤ 9) (hunit : 10 ^ (9 - width) = unit) (hdvd : unit ∣ nanos)
    (h : nanos < 10 ^ 9) (hrest : EndsDigits rest) :
    fraction? (("." ++ padded width (nanos / unit)).toList ++ rest) = some (nanos, rest) := by
  have hdot : ".".toList = ['.'] := rfl
  have hlt : nanos / unit < 10 ^ width := by
    rw [← hunit]
    refine Nat.div_lt_of_lt_mul ?_
    rwa [← pow_add, Nat.sub_add_cancel hmost]
  rw [String.toList_append, hdot, List.append_assoc, List.singleton_append,
    fraction?_point (allDigits_padded _ _) (padded_ne_nil _ _)
      ((length_padded hwidth hlt).le.trans hmost) hrest,
    digitsValue_padded, length_padded hwidth hlt, hunit, Nat.div_mul_cancel hdvd]

theorem fraction?_fractionText {nanos : Nat} (h : nanos < 10 ^ 9) {rest : List Char}
    (hpoint : rest.head? ≠ some '.') (hrest : EndsDigits rest) :
    fraction? ((fractionText nanos).toList ++ rest) = some (nanos, rest) := by
  unfold fractionText
  split
  · next hzero =>
    rw [beq_iff_eq] at hzero
    rw [hzero, String.toList_empty, List.nil_append]
    cases rest with
    | nil => rfl
    | cons c rest =>
      rw [fraction?]
      rintro tail hcons
      exact hpoint (by rw [hcons]; rfl)
  · split
    · next hmillis =>
      rw [beq_iff_eq] at hmillis
      exact fraction?_padded (by decide) (by decide) rfl (Nat.dvd_of_mod_eq_zero hmillis) h hrest
    · split
      · next hmicros =>
        rw [beq_iff_eq] at hmicros
        exact fraction?_padded (by decide) (by decide) rfl (Nat.dvd_of_mod_eq_zero hmicros) h hrest
      · have hunit : 10 ^ (9 - 9) = 1 := rfl
        have hnanos := fraction?_padded (by decide) (by decide) hunit (Nat.one_dvd nanos) h hrest
        rwa [Nat.div_one] at hnanos

theorem endsDigits_fractionText (nanos : Nat) {rest : List Char} (hrest : EndsDigits rest) :
    EndsDigits ((fractionText nanos).toList ++ rest) := by
  have hpoint (s : String) : EndsDigits (("." ++ s).toList ++ rest) := by
    rw [String.toList_append, List.append_assoc]
    exact endsDigits_cons (by decide) _
  unfold fractionText
  split
  · exact hrest
  · split
    · exact hpoint _
    · split
      · exact hpoint _
      · exact hpoint _

/-! ## Stamps -/

theorem timeMark?_letter (rest : List Char) : timeMark? ('T' :: rest) = some rest := rfl

/-- The letter of universal time ends a stamp. -/
theorem offset?_letter : offset? (trimStart ['Z']) = some (0, []) := by decide +kernel

namespace Instant

/-- No seconds leave an instant where it is. -/
theorem shift?_zero (t : Instant) : t.shift? 0 = some t := by
  have hlt := t.second_lt
  have hday : t.day + (Int.ofNat t.second + 0) / 86400 = t.day := by
    rw [Int.ofNat_eq_natCast]
    omega
  have hsecond : ((Int.ofNat t.second + 0) % 86400).toNat = t.second := by
    rw [Int.ofNat_eq_natCast]
    omega
  rw [shift?, hday, hsecond, make?_self]

/-- The characters of a stamp, one part after another. -/
theorem toList_stamp (t : Instant) : t.stamp.toList =
    (yearText t.date.year).toList ++ '-' :: ((padded 2 t.date.month).toList ++
      '-' :: ((padded 2 t.date.day).toList ++ 'T' :: ((padded 2 t.hour).toList ++
      ':' :: ((padded 2 t.minute).toList ++ ':' :: ((padded 2 t.clockSecond).toList ++
      ((fractionText (t.nanos % 1000000000)).toList ++ ['Z'])))))) := by
  have hdash : "-".toList = ['-'] := rfl
  have htime : "T".toList = ['T'] := rfl
  have hcolon : ":".toList = [':'] := rfl
  have hzone : "Z".toList = ['Z'] := rfl
  simp only [stamp, clockText, subsecondText, clockSecond, String.toList_append, hdash, htime,
    hcolon, hzone, List.append_assoc, List.cons_append, List.nil_append]

end Instant

/-- Every instant is read back from its stamp. -/
theorem stamp?_stamp (t : Instant) : stamp? t.stamp = some t := by
  obtain ⟨-, hmonth, hday⟩ : 1 ≤ t.date.month ∧ t.date.month ≤ 12 ∧ t.date.day ≤ 31 :=
    civil_bounds t.day
  have hhour := t.hour_lt
  have hminute := t.minute_lt
  have hsecond := t.clockSecond_le
  have hmark : EndsDigits ['Z'] := endsDigits_cons (by decide) []
  have hnanos : t.nanos % 1000000000 < 10 ^ 9 := Nat.mod_lt _ (by decide)
  simp only [stamp?, t.toList_stamp, Option.bind_eq_bind, Option.bind_some,
    date?_text t.date (by omega : _ < 100) (by omega) (endsDigits_cons (c := 'T') (by decide) _),
    timeMark?_letter,
    clock?_text (by omega : t.hour < 100) (by omega : t.minute < 100)
      (by omega : t.clockSecond < 100) (endsDigits_fractionText _ hmark),
    fraction?_fractionText hnanos (by decide) hmark, offset?_letter,
    t.ofParts?_clock]
  exact t.shift?_zero

end Catalogue.Time
