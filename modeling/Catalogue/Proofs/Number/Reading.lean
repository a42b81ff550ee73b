import Catalogue.Proofs.Number.Finite
import Catalogue.Proofs.Number.Notation

/-!
# Finite floats read from their texts

The text of a finite float is a decimal numeral. The decimal it denotes lies no farther from the
float than half of its last bit, so it is below the end of the range and is read as a finite float.

* `decimal?_positional` — the decimal that positional notation denotes.
* `isBelow_shortest` — the shortest decimal of a float is below the end of the range.
* `mem_text_of_isFinite` — the characters of the text of a finite float.
* `exists_finite?_text` — the text of a finite float is read as a finite float.
-/

namespace Catalogue.Number

open Catalogue.Text

/-! ## Digits -/

theorem digitsValue_eq (cs : List Char) : digitsValue cs = Nat.ofDigitChars 10 cs 0 :=
  Nat.ofDigitChars_eq_foldl.symm

theorem digitsValue_repr (n : Nat) : digitsValue (Nat.repr n).toList = n := by
  rw [digitsValue_eq, Nat.toList_repr, Nat.ofDigitChars_ten_toDigits]

/-- A zero in front changes nothing. -/
theorem digitsValue_zeros_append (n : Nat) (cs : List Char) :
    digitsValue (List.replicate n '0' ++ cs) = digitsValue cs := by
  rw [digitsValue_eq, digitsValue_eq, Nat.ofDigitChars_append, Nat.ofDigitChars_replicate_zero,
    Nat.mul_zero]

theorem digitsValue_append_zeros (cs : List Char) (n : Nat) :
    digitsValue (cs ++ List.replicate n '0') = digitsValue cs * 10 ^ n := by
  rw [digitsValue_eq, digitsValue_eq, Nat.ofDigitChars_append, Nat.ofDigitChars_replicate_zero,
    Nat.mul_comm]

/-- A list of decimal digits. -/
def AllDigits (cs : List Char) : Prop := ∀ c ∈ cs, isDigit c = true

theorem allDigits_repr (n : Nat) : AllDigits (Nat.repr n).toList := by
  intro c hc
  rw [Nat.toList_repr] at hc
  have hdigit := Nat.isDigit_of_mem_toDigits (by decide) (by decide) hc
  simp only [Char.isDigit, Bool.and_eq_true, decide_eq_true_eq] at hdigit
  simp only [isDigit, Bool.and_eq_true, decide_eq_true_eq]
  exact hdigit

theorem allDigits_zeros (n : Nat) : AllDigits (List.replicate n '0') := by
  intro c hc
  rw [List.eq_of_mem_replicate hc]
  decide

theorem AllDigits.append {cs ds : List Char} (hcs : AllDigits cs) (hds : AllDigits ds) :
    AllDigits (cs ++ ds) :=
  List.forall_mem_append.mpr ⟨hcs, hds⟩

/-- A text that a number in front of it ends at. -/
def EndsDigits (rest : List Char) : Prop := ∀ c ∈ rest.head?, isDigit c = false

theorem endsDigits_cons {c : Char} (h : isDigit c = false) (rest : List Char) :
    EndsDigits (c :: rest) := by
  rintro d hd
  obtain rfl := Option.some.inj hd
  exact h

theorem takeWhile_append_endsDigits (cs : List Char) {rest : List Char} (h : EndsDigits rest) :
    (cs ++ rest).takeWhile isDigit = cs.takeWhile isDigit := by
  induction cs with
  | nil =>
    cases rest with
    | nil => rfl
    | cons c rest => rw [List.nil_append, List.takeWhile_cons, h c rfl]; rfl
  | cons c cs ih => rw [List.cons_append, List.takeWhile_cons, List.takeWhile_cons, ih]

theorem dropWhile_append_endsDigits (cs : List Char) {rest : List Char} (h : EndsDigits rest) :
    (cs ++ rest).dropWhile isDigit = cs.dropWhile isDigit ++ rest := by
  induction cs with
  | nil =>
    cases rest with
    | nil => rfl
    | cons c rest => rw [List.nil_append, List.dropWhile_cons, h c rfl]; rfl
  | cons c cs ih =>
    rw [List.cons_append, List.dropWhile_cons, List.dropWhile_cons, ih]
    split <;> rfl

theorem AllDigits.takeWhile_append {ds rest : List Char} (hds : AllDigits ds)
    (h : EndsDigits rest) : (ds ++ rest).takeWhile isDigit = ds := by
  rw [takeWhile_append_endsDigits ds h, List.takeWhile_eq_self_iff.mpr hds]

theorem AllDigits.dropWhile_append {ds rest : List Char} (hds : AllDigits ds)
    (h : EndsDigits rest) : (ds ++ rest).dropWhile isDigit = rest := by
  rw [dropWhile_append_endsDigits ds h, List.dropWhile_eq_nil_iff.mpr hds, List.nil_append]

/-! ## Numerals -/

theorem toLower_of_isDigit {c : Char} (h : isDigit c = true) : c.toLower = c := by
  simp only [isDigit, Bool.and_eq_true, decide_eq_true_eq] at h
  have hhigh : c.val.toNat ≤ '9'.val.toNat := UInt32.le_iff_toNat_le.mp h.2
  have hnine : '9'.val.toNat = 57 := rfl
  rw [Char.toLower, dif_neg]
  rintro ⟨hlow, -⟩
  have : 65 ≤ c.val.toNat := UInt32.le_iff_toNat_le.mp hlow
  omega

/-- The first character is a digit. -/
def StartsWithDigit (cs : List Char) : Prop := ∃ c ∈ cs.head?, isDigit c = true

theorem AllDigits.startsWithDigit {cs : List Char} (h : AllDigits cs) (hne : cs ≠ [])
    (rest : List Char) : StartsWithDigit (cs ++ rest) := by
  obtain ⟨c, cs, rfl⟩ := List.exists_cons_of_ne_nil hne
  exact ⟨c, rfl, h c List.mem_cons_self⟩

/-- What starts with a digit is not one of the words. -/
theorem StartsWithDigit.lower_ne {cs : List Char} (h : StartsWithDigit cs) {w : String}
    (hw : w.toList.head?.any isDigit = false) : (lower (String.ofList cs) == w) = false := by
  obtain ⟨c, hc, hdigit⟩ := h
  rw [beq_eq_false_iff_ne]
  rintro rfl
  rw [lower, String.toList_map, String.toList_ofList, List.head?_map, hc, Option.map_some,
    toLower_of_isDigit hdigit, Option.any_some, hdigit] at hw
  cases hw

section Unsigned

variable {whole fraction : List Char}

/-- Digits are read as the integer that they write. -/
theorem unsigned?_digits (negative : Bool) (hne : whole ≠ []) (hwhole : AllDigits whole) :
    unsigned? negative whole = some (.finite negative (digitsValue whole) 0) := by
  have hstart := hwhole.startsWithDigit hne []
  rw [List.append_nil] at hstart
  have htake : whole.takeWhile isDigit = whole := List.takeWhile_eq_self_iff.mpr hwhole
  have hdrop : whole.dropWhile isDigit = [] := List.dropWhile_eq_nil_iff.mpr hwhole
  rw [unsigned?, htake, hdrop]
  simp only [hstart.lower_ne (w := "inf") (by decide),
    hstart.lower_ne (w := "infinity") (by decide), hstart.lower_ne (w := "nan") (by decide),
    List.isEmpty_eq_false_iff.mpr hne, Bool.or_self, Bool.false_and, Bool.false_eq_true, if_false,
    exponent?, Option.map_some, List.append_nil]
  rfl

/-- Digits with a point among them are read as the integer that they write without the point, and
as many places. -/
theorem unsigned?_point (negative : Bool) (hne : whole ≠ []) (hwhole : AllDigits whole)
    (hfraction : AllDigits fraction) :
    unsigned? negative (whole ++ '.' :: fraction) =
      some (.finite negative (digitsValue (whole ++ fraction)) (-(fraction.length : Int))) := by
  have hstart := hwhole.startsWithDigit hne ('.' :: fraction)
  have htake : (whole ++ '.' :: fraction).takeWhile isDigit = whole := by
    rw [List.takeWhile_append_of_pos hwhole, List.takeWhile_cons_of_neg (by decide),
      List.append_nil]
  have hdrop : (whole ++ '.' :: fraction).dropWhile isDigit = '.' :: fraction := by
    rw [List.dropWhile_append_of_pos hwhole, List.dropWhile_cons_of_neg (by decide)]
  have htake' : fraction.takeWhile isDigit = fraction := List.takeWhile_eq_self_iff.mpr hfraction
  have hdrop' : fraction.dropWhile isDigit = [] := List.dropWhile_eq_nil_iff.mpr hfraction
  rw [unsigned?, htake, hdrop]
  simp only [hstart.lower_ne (w := "inf") (by decide),
    hstart.lower_ne (w := "infinity") (by decide), hstart.lower_ne (w := "nan") (by decide),
    htake', hdrop', List.isEmpty_eq_false_iff.mpr hne, Bool.or_self, Bool.false_and,
    Bool.false_eq_true, if_false, exponent?, Option.map_some, Int.zero_sub]

end Unsigned

/-- Positional notation starts with a digit and is read as the decimal that it writes. -/
theorem positional_spec (negative : Bool) (digits : Nat) (exponent : Int) :
    StartsWithDigit (positional digits exponent).toList ∧
    unsigned? negative (positional digits exponent).toList = some
      (.finite negative (digits * 10 ^ exponent.toNat) (-((-exponent).toNat : Int))) := by
  have hne : (Nat.repr digits).toList ≠ [] := by
    rw [Nat.toList_repr]
    exact Nat.toDigits_ne_nil
  unfold positional
  dsimp only
  split
  · next hexponent =>
    have hall := (allDigits_repr digits).append (allDigits_zeros exponent.toNat)
    have hplaces : (-exponent).toNat = 0 := by omega
    rw [String.toList_ofList, unsigned?_digits negative (by simp) hall, digitsValue_append_zeros,
      digitsValue_repr, hplaces]
    exact ⟨(allDigits_repr digits).startsWithDigit hne _, rfl⟩
  · next hexponent =>
    obtain ⟨places, hplaces⟩ : ∃ places, (-exponent).toNat = places := ⟨_, rfl⟩
    have hwhole : exponent.toNat = 0 := by omega
    rw [hplaces, hwhole, Nat.pow_zero, Nat.mul_one]
    generalize hpadded : List.replicate (places + 1 - (Nat.repr digits).toList.length) '0' ++
      (Nat.repr digits).toList = padded
    have hall : AllDigits padded := hpadded ▸ (allDigits_zeros _).append (allDigits_repr digits)
    have hvalue : digitsValue padded = digits := by
      rw [← hpadded, digitsValue_zeros_append, digitsValue_repr]
    have hlength : places + 1 ≤ padded.length := by
      rw [← hpadded, List.length_append, List.length_replicate]
      omega
    have htake : padded.take (padded.length - places) ≠ [] := by
      rw [← List.length_pos_iff, List.length_take]
      omega
    have hfront : AllDigits (padded.take (padded.length - places)) :=
      fun c hc => hall c (List.mem_of_mem_take hc)
    have hback : AllDigits (padded.drop (padded.length - places)) :=
      fun c hc => hall c (List.mem_of_mem_drop hc)
    rw [String.toList_ofList, unsigned?_point negative htake hfront hback, List.take_append_drop,
      hvalue, List.length_drop, Nat.sub_sub_self (by omega)]
    exact ⟨hfront.startsWithDigit htake _, rfl⟩

/-- A number in positional notation is read as the decimal that it writes. -/
theorem decimal?_positional (negative : Bool) (digits : Nat) (exponent : Int) :
    decimal? (signed negative (positional digits exponent)) = some
      (.finite negative (digits * 10 ^ exponent.toNat) (-((-exponent).toNat : Int))) := by
  obtain ⟨⟨c, hc, hdigit⟩, hunsigned⟩ := positional_spec negative digits exponent
  cases negative with
  | true =>
    rw [signed, if_pos rfl, decimal?, String.toList_append]
    exact hunsigned
  | false =>
    rw [signed, if_neg Bool.false_ne_true, decimal?]
    split
    · next hlist =>
      rw [hlist] at hc
      obtain rfl := Option.some.inj hc
      cases hdigit
    · next hlist =>
      rw [hlist] at hc
      obtain rfl := Option.some.inj hc
      cases hdigit
    · exact hunsigned

/-! ## The shortest decimal -/

/-- The decimal is below the least number that is rounded to infinity. -/
def IsBelow (digits : Nat) (exponent : Int) : Prop :=
  BelowEnd (digits * 10 ^ exponent.toNat) (10 ^ (-exponent).toNat)

theorem isBelow_zero (exponent : Int) : IsBelow 0 exponent := by
  rw [IsBelow, Nat.zero_mul]
  exact belowEnd_zero (Nat.pow_pos (by decide))

/-- Half of the last bit above a mantissa. -/
theorem lt_of_le_half {x m c n s p : Nat} (h : x ≤ (4 * m + 2) * (n * 2 ^ s))
    (hodd : m % 2 = 1 → x < (4 * m + 2) * (n * 2 ^ s)) (hn : 0 < n) (hm : m < 2 * c)
    (hs : s < p) : x < (4 * c - 1) * 2 ^ p * n := by
  obtain ⟨p, rfl⟩ := Nat.exists_eq_succ_of_ne_zero (Nat.ne_zero_of_lt hs)
  have hend : (4 * c - 1) * 2 ^ (p + 1) * n = (8 * c - 2) * (n * 2 ^ p) := by
    have hdouble : 8 * c - 2 = (4 * c - 1) * 2 := by omega
    rw [pow_succ, hdouble]
    ring
  have hroom : n * 2 ^ s ≤ n * 2 ^ p :=
    Nat.mul_le_mul_left n (Nat.pow_le_pow_right (by decide) (Nat.le_of_lt_succ hs))
  rw [hend]
  by_cases hparity : m % 2 = 1
  · exact (hodd hparity).trans_le (Nat.mul_le_mul (by omega) hroom)
  · have hpos : 0 < n * 2 ^ s := Nat.mul_pos hn (Nat.two_pow_pos s)
    calc x ≤ (4 * m + 2) * (n * 2 ^ s) := h
      _ < (8 * c - 2) * (n * 2 ^ s) := Nat.mul_lt_mul_of_pos_right (by omega) hpos
      _ ≤ (8 * c - 2) * (n * 2 ^ p) := Nat.mul_le_mul_left _ hroom

/-- The upper end counts when the mantissa is even. -/
theorem le_of_readsBack {m x low high : Nat}
    (h : (if (m % 2 == 0) = true then decide (low ≤ x) && decide (x ≤ high)
      else decide (low < x) && decide (x < high)) = true) :
    x ≤ high ∧ (m % 2 = 1 → x < high) := by
  split at h
  · next heven =>
    simp only [Bool.and_eq_true, decide_eq_true_eq] at h
    rw [beq_iff_eq] at heven
    exact ⟨h.2, fun hodd => by omega⟩
  · simp only [Bool.and_eq_true, decide_eq_true_eq] at h
    exact ⟨h.2.le, fun _ => h.2⟩

/-- A neighbour on a grid that reads back is no farther than half of the last bit, and nearer when
the mantissa is odd. -/
theorem onGrid?_le {p : Precision} {m n : Nat} {q k : Int}
    (h : onGrid? .larger p m q k = some n) :
    n * (10 ^ k.toNat * 2 ^ (2 - q).toNat) ≤
        (4 * m + 2) * (10 ^ (-k).toNat * 2 ^ (q - 2).toNat) ∧
      (m % 2 = 1 → n * (10 ^ k.toNat * 2 ^ (2 - q).toNat) <
        (4 * m + 2) * (10 ^ (-k).toNat * 2 ^ (q - 2).toNat)) := by
  unfold onGrid? at h
  simp only [Nat.shiftLeft_eq, Nat.pow_eq] at h
  split at h
  · next hbelow habove =>
    split at h
    · obtain rfl := Option.some.inj h
      exact le_of_readsBack hbelow
    · obtain rfl := Option.some.inj h
      exact le_of_readsBack habove
    · obtain rfl := Option.some.inj h
      exact le_of_readsBack habove
  · next hbelow _ =>
    obtain rfl := Option.some.inj h
    exact le_of_readsBack hbelow
  · next _ habove =>
    obtain rfl := Option.some.inj h
    exact le_of_readsBack habove
  · cases h

/-- A neighbour on a grid that reads back is below the end of the range. -/
theorem isBelow_onGrid? {p : Precision} {m n : Nat} {q k : Int} (hm : m < 2 ^ 53) (hq : q ≤ 971)
    (h : onGrid? .larger p m q k = some n) : IsBelow n k := by
  obtain ⟨hle, hlt⟩ := onGrid?_le h
  have hgrid : n * 10 ^ k.toNat ≤ n * (10 ^ k.toNat * 2 ^ (2 - q).toNat) :=
    Nat.mul_le_mul_left n (Nat.le_mul_of_pos_right _ (Nat.two_pow_pos _))
  have hend := endExponent_eq
  have hscale : (q - 2).toNat < endExponent := by omega
  have hbelow := lt_of_le_half (c := 2 ^ 52) (hgrid.trans hle)
    (fun hodd => hgrid.trans_lt (hlt hodd)) (Nat.pow_pos (by decide)) hm hscale
  exact hbelow

/-- A zero at the end is moved into the exponent. -/
theorem IsBelow.strip {digits : Nat} {exponent : Int} (h : IsBelow digits exponent)
    (hzero : digits % 10 = 0) : IsBelow (digits / 10) (exponent + 1) := by
  rw [IsBelow, BelowEnd] at h ⊢
  by_cases hexponent : 0 ≤ exponent
  · have hsucc : (exponent + 1).toNat = exponent.toNat + 1 := by omega
    have hplaces : (-exponent).toNat = 0 := by omega
    have hplaces' : (-(exponent + 1)).toNat = 0 := by omega
    have hdigits : digits / 10 * 10 = digits := by omega
    rw [hplaces] at h
    rwa [hsucc, hplaces', pow_succ' 10, ← Nat.mul_assoc, hdigits]
  · have hwhole : exponent.toNat = 0 := by omega
    have hwhole' : (exponent + 1).toNat = 0 := by omega
    have hsucc : (-exponent).toNat = (-(exponent + 1)).toNat + 1 := by omega
    rw [hwhole, hsucc, Nat.pow_zero, Nat.mul_one, pow_succ 10, ← Nat.mul_assoc] at h
    rw [hwhole', Nat.pow_zero, Nat.mul_one]
    exact Nat.div_lt_of_lt_mul (by rwa [Nat.mul_comm])

/-- Zeros at the end are moved into the exponent. -/
theorem isBelow_stripZeros {digits : Nat} {exponent : Int} (h : IsBelow digits exponent) :
    IsBelow (stripZeros digits exponent).1 (stripZeros digits exponent).2 := by
  induction digits, exponent using stripZeros.induct with
  | case1 digits exponent hzero ih =>
    rw [stripZeros, dif_pos hzero]
    exact ih (h.strip hzero.2)
  | case2 digits exponent hzero =>
    rwa [stripZeros, dif_neg hzero]

/-- The shortest decimal of a float is below the end of the range. -/
theorem isBelow_shortest {p : Precision} {m : Nat} {q : Int} (hm : m < 2 ^ 53) (hq : q ≤ 971) :
    IsBelow (shortest .larger p m q).1 (shortest .larger p m q).2 := by
  unfold shortest
  dsimp only
  split
  · exact isBelow_zero 0
  · generalize hfound : List.findSome? _ _ = found
    cases found with
    | none => exact isBelow_zero 0
    | some d =>
      obtain ⟨i, -, hi⟩ := List.exists_of_findSome?_eq_some hfound
      obtain ⟨n, hn, rfl⟩ := Option.map_eq_some_iff.mp hi
      exact isBelow_stripZeros (isBelow_onGrid? hm hq hn)

/-! ## Texts -/

/-- Such a mantissa has no bits that the format has no room for. -/
theorem fit_double {m : Nat} {q : Int} (hm : m < 2 ^ 53) (hq : -1074 ≤ q) :
    Precision.double.fit m q = (m, q) := by
  have hlog : m.log2 ≤ 52 := by
    by_cases hzero : m = 0
    · rw [hzero, Nat.log2_zero]
      omega
    · exact Nat.le_of_lt_succ ((Nat.log2_lt hzero).mpr hm)
  have hshift : (max (Int.ofNat (m.log2 + 1) - Precision.double.bits)
      (Precision.double.least - q)).toNat = 0 := by
    show (max (((m.log2 + 1 : Nat) : Int) - (53 : Nat)) (-1074 - q)).toNat = 0
    omega
  rw [Precision.fit, hshift]
  simp

/-- The text of a finite float is a sign and positional notation. -/
theorem text_of_isFinite {x : Float} (h : x.isFinite = true) :
    ∃ m q, m < 2 ^ 53 ∧ q ≤ 971 ∧ text x = signed (isNegative x) (positional
      (shortest .larger .double m q).1 (shortest .larger .double m q).2) := by
  obtain ⟨m, q, hform, hm, hlow, hhigh⟩ := form_of_isFinite h
  refine ⟨m, q, hm, hhigh, ?_⟩
  simp only [text, textBy, hform, fit_double hm hlow]

/-- The text of a finite float has digits, a point and a minus sign only. -/
theorem mem_text_of_isFinite {x : Float} (h : x.isFinite = true) {c : Char}
    (hc : c ∈ (text x).toList) : c = '-' ∨ c = '.' ∨ c.isDigit = true := by
  obtain ⟨m, q, -, -, htext⟩ := text_of_isFinite h
  rw [htext, signed] at hc
  split at hc
  · rw [String.toList_append, List.mem_append] at hc
    rcases hc with hsign | hc
    · exact .inl (List.mem_singleton.mp hsign)
    · exact .inr (mem_positional hc)
  · exact .inr (mem_positional hc)

/-- The text of a finite float is read as a finite float. -/
theorem exists_finite?_text {x : Float} (h : x.isFinite = true) :
    ∃ y, finite? (text x) = some y := by
  obtain ⟨m, q, hm, hhigh, htext⟩ := text_of_isFinite h
  have hbelow := isBelow_shortest (p := Precision.double) hm hhigh
  rw [finite?, float?, htext, decimal?_positional, Option.map_some, Option.filter_some,
    if_pos (hbelow.isFinite_toFloat _)]
  exact ⟨_, rfl⟩

end Catalogue.Number
