import Catalogue.Json.Token
import Catalogue.Json.Writer
import Catalogue.Proofs.Number.Reading

/-!
# Written scalars as tokens

A string is written character by character, and every character is scanned back on its own. A number
ends where a comma or a bracket begins, so what follows it does not change how it is read.

* `quotes_flatMap` — a string whose characters are scanned back one by one is one token.
* `number?_append` — a number is read the same in front of what ends it.
* `number?_toString` — an integer that fits 64 bits stays an integer.
-/

namespace Catalogue.Json

open Catalogue.Number
open Catalogue.Text

/-! ## Strings -/

theorem hexDigit?_hexDigit : ∀ n < 16, hexDigit? (hexDigit n) = some n := by
  decide

/-- The four digits of an escape give its number back. -/
theorem hex4?_escapeCode {n : Nat} (h : n < 0x10000) : hex4? (hexDigit (n / 4096 % 16))
    (hexDigit (n / 256 % 16)) (hexDigit (n / 16 % 16)) (hexDigit (n % 16)) = some n := by
  have hdigit (k : Nat) : hexDigit? (hexDigit (k % 16)) = some (k % 16) :=
    hexDigit?_hexDigit _ (Nat.mod_lt k (by decide))
  have hvalue : ((n / 4096 % 16 * 16 + n / 256 % 16) * 16 + n / 16 % 16) * 16 + n % 16 = n := by
    omega
  simp only [hex4?, hdigit, Option.bind_eq_bind, Option.bind_some, Option.pure_def, hvalue]

/-- Characters that are scanned as one character of a string, whatever follows them. -/
def Spells (cs : List Char) (c : Char) : Prop :=
  ∀ rest, scan (cs ++ rest) = (scan rest).map fun p => (.char c :: p.1, p.2)

section Spells

variable {c d : Char}

/-- A letter after a backslash. -/
theorem spells_letter (hd : d ≠ 'u') (h : escaped? d = some c) : Spells ['\\', d] c := by
  intro rest
  show scan ('\\' :: d :: rest) = _
  rw [scan, h]
  · cases scan rest <;> rfl
  · rintro _ _ _ _ _ rfl
    exact absurd rfl hd

/-- A four-digit escape of a character below the surrogates. -/
theorem spells_escapeCode (h : c.toNat < 0xD800) : Spells (escapeCode c.toNat) c := by
  intro rest
  have hunit : unit c.toNat = .char c := by
    have hhalf : (decide (0xD800 ≤ c.toNat) && decide (c.toNat ≤ 0xDFFF)) = false := by
      rw [Bool.and_eq_false_iff, decide_eq_false_iff_not]
      exact .inl (Nat.not_le.mpr h)
    rw [unit, hhalf, if_neg Bool.false_ne_true, Char.ofNat_toNat]
  show scan ('\\' :: 'u' :: _ :: _ :: _ :: _ :: rest) = _
  rw [scan, hex4?_escapeCode (h.trans (by decide)), ← hunit]
  cases scan rest <;> rfl

/-- A character that needs no escape. -/
theorem spells_self (hlow : 0x20 ≤ c.toNat) (hquote : c ≠ '"') (hslash : c ≠ '\\') :
    Spells [c] c := by
  intro rest
  have hplain : (decide (c.toNat < 32) || c == '\\') = false := by
    rw [Bool.or_eq_false_iff, decide_eq_false_iff_not, beq_eq_false_iff_ne]
    exact ⟨Nat.not_lt.mpr hlow, hslash⟩
  rw [List.singleton_append, scan]
  · rw [hplain, if_neg Bool.false_ne_true]
    cases scan rest <;> rfl
  · exact hquote
  · intro _ _ _ _ _ h
    exact absurd h hslash
  · intro _ _ h
    exact absurd h hslash

/-- A character of a string is scanned back. -/
theorem spells_escapeChar (c : Char) : Spells (escapeChar c) c := by
  unfold escapeChar
  split
  · exact spells_letter (by decide) rfl
  · exact spells_letter (by decide) rfl
  · exact spells_letter (by decide) rfl
  · exact spells_letter (by decide) rfl
  · exact spells_letter (by decide) rfl
  · exact spells_letter (by decide) rfl
  · exact spells_letter (by decide) rfl
  · next hquote hslash _ _ _ _ _ =>
    split
    · next hlow => exact spells_escapeCode (hlow.trans (by decide))
    · next hlow => exact spells_self (Nat.not_lt.mp hlow) hquote hslash

end Spells

theorem joinPairs_chars (cs : List Char) : joinPairs (cs.map .char) = some cs := by
  induction cs with
  | nil => rfl
  | cons c cs ih => rw [List.map_cons, joinPairs, ih]; rfl

/-- A text that is one token, the given string. -/
def Quotes (text : List Char) (s : String) : Prop :=
  ∃ cs, text = '"' :: cs ∧ ∀ rest, token? '"' (cs ++ rest) = some (.text (some s), rest)

section Escape

variable {escape : Char → List Char} (h : ∀ c, Spells (escape c) c)
include h

/-- The characters of a string are scanned back up to the closing quote. -/
theorem scan_flatMap (cs rest : List Char) :
    scan (cs.flatMap escape ++ '"' :: rest) = some (cs.map .char, rest) := by
  induction cs with
  | nil => rfl
  | cons c cs ih => rw [List.flatMap_cons, List.append_assoc, h, ih]; rfl

/-- A string between quotes is one token if every character is scanned back. -/
theorem quotes_flatMap (s : String) : Quotes ('"' :: (s.toList.flatMap escape ++ ['"'])) s := by
  refine ⟨_, rfl, fun rest => ?_⟩
  rw [List.append_assoc, List.singleton_append]
  show (scan _).map _ = _
  rw [scan_flatMap h, Option.map_some]
  show some (Token.text ((joinPairs _).map _), rest) = _
  rw [joinPairs_chars, Option.map_some, String.ofList_toList]

end Escape

theorem quotes_stringText (s : String) : Quotes (stringText s).toList s := by
  rw [stringText, String.toList_ofList]
  exact quotes_flatMap spells_escapeChar s

/-! ## The end of a number -/

/-- A text that a number in front of it ends at, with or without a point and an exponent. -/
structure EndsNumber (rest : List Char) : Prop where
  digits : EndsDigits rest
  point : ∀ r, rest ≠ '.' :: r
  exponent : ∀ c ∈ rest.head?, (c == 'e' || c == 'E') = false

theorem endsNumber_nil : EndsNumber [] := ⟨nofun, nofun, nofun⟩

/-- A character that no number has inside it ends the number in front of it. -/
theorem endsNumber_cons {c : Char}
    (h : isDigit c = false ∧ c ≠ '.' ∧ (c == 'e' || c == 'E') = false) (rest : List Char) :
    EndsNumber (c :: rest) := by
  obtain ⟨hdigit, hpoint, hexponent⟩ := h
  refine ⟨endsDigits_cons hdigit rest, ?_, ?_⟩
  · rintro _ heq
    exact hpoint (List.cons.inj heq).1
  · rintro _ ⟨⟩
    exact hexponent

section Append

variable {cs r rest : List Char}

theorem wholeDigits?_append {ds : List Char} (h : wholeDigits? cs = some (ds, r))
    (hrest : EndsNumber rest) : wholeDigits? (cs ++ rest) = some (ds, r ++ rest) := by
  unfold wholeDigits? at h
  split at h
  · obtain ⟨rfl, rfl⟩ := Prod.mk.inj (Option.some.inj h)
    rfl
  · next hzero =>
    dsimp only at h
    split at h
    · cases h
    · next hne =>
      obtain ⟨rfl, rfl⟩ := Prod.mk.inj (Option.some.inj h)
      cases cs with
      | nil => exact absurd rfl hne
      | cons c cs =>
        rw [List.cons_append, wholeDigits?]
        · rw [← List.cons_append, takeWhile_append_endsDigits _ hrest.digits,
            dropWhile_append_endsDigits _ hrest.digits, if_neg hne]
        · rintro _ heq
          obtain ⟨rfl, -⟩ := List.cons.inj heq
          exact hzero cs rfl

theorem fractionDigits?_append {ds : List Char} (h : fractionDigits? cs = some (ds, r))
    (hrest : EndsNumber rest) : fractionDigits? (cs ++ rest) = some (ds, r ++ rest) := by
  unfold fractionDigits? at h
  split at h
  · next tail =>
    dsimp only at h
    split at h
    · cases h
    · next hne =>
      obtain ⟨rfl, rfl⟩ := Prod.mk.inj (Option.some.inj h)
      rw [List.cons_append, fractionDigits?, takeWhile_append_endsDigits _ hrest.digits,
        dropWhile_append_endsDigits _ hrest.digits, if_neg hne]
  · next hpoint =>
    obtain ⟨rfl, rfl⟩ := Prod.mk.inj (Option.some.inj h)
    rw [fractionDigits?]
    rintro tail heq
    cases cs with
    | nil => exact hrest.point tail heq
    | cons c cs =>
      obtain ⟨rfl, -⟩ := List.cons.inj heq
      exact hpoint cs rfl

theorem exponentDigits?_append {negative : Bool} {e : Option Int}
    (h : exponentDigits? negative cs = some (e, r)) (hrest : EndsNumber rest) :
    exponentDigits? negative (cs ++ rest) = some (e, r ++ rest) := by
  unfold exponentDigits? at h ⊢
  dsimp only at h ⊢
  rw [takeWhile_append_endsDigits _ hrest.digits, dropWhile_append_endsDigits _ hrest.digits]
  split at h
  · cases h
  · next hne =>
    obtain ⟨rfl, rfl⟩ := Prod.mk.inj (Option.some.inj h)
    rw [if_neg hne]

theorem exponentPart?_append {e : Option Int} (h : exponentPart? cs = some (e, r))
    (hrest : EndsNumber rest) : exponentPart? (cs ++ rest) = some (e, r ++ rest) := by
  cases cs with
  | nil =>
    obtain ⟨rfl, rfl⟩ := Prod.mk.inj (Option.some.inj h)
    cases rest with
    | nil => rfl
    | cons c rest =>
      unfold exponentPart?
      dsimp only [List.nil_append]
      rw [hrest.exponent c rfl, if_neg Bool.false_ne_true]
  | cons c cs =>
    unfold exponentPart? at h ⊢
    dsimp only [List.cons_append] at h ⊢
    split at h
    · next hmark =>
      rw [if_pos hmark]
      split at h
      · next t => exact exponentDigits?_append h hrest
      · next t => exact exponentDigits?_append h hrest
      · next hminus hplus =>
        cases cs with
        | nil => cases h
        | cons d cs =>
          have happend := exponentDigits?_append h hrest
          split
          · next t heq =>
            obtain ⟨rfl, -⟩ := List.cons.inj heq
            exact absurd rfl (hminus cs)
          · next t heq =>
            obtain ⟨rfl, -⟩ := List.cons.inj heq
            exact absurd rfl (hplus cs)
          · exact happend
    · next hmark =>
      obtain ⟨rfl, rfl⟩ := Prod.mk.inj (Option.some.inj h)
      rw [if_neg hmark]
      rfl

theorem unsignedNumber?_append {negative : Bool} {v : Json}
    (h : unsignedNumber? negative cs = some (v, r)) (hrest : EndsNumber rest) :
    unsignedNumber? negative (cs ++ rest) = some (v, r ++ rest) := by
  unfold unsignedNumber? at h ⊢
  simp only [Option.bind_eq_bind, Option.bind_eq_some_iff, Option.pure_def] at h
  obtain ⟨⟨whole, cs₁⟩, hwhole, ⟨fraction, cs₂⟩, hfraction, ⟨exponent, cs₃⟩, hexponent, h⟩ := h
  obtain ⟨rfl, rfl⟩ := Prod.mk.inj (Option.some.inj h)
  simp only [wholeDigits?_append hwhole hrest, fractionDigits?_append hfraction hrest,
    exponentPart?_append hexponent hrest, Option.bind_eq_bind, Option.bind_some, Option.pure_def]

/-- A number is read the same in front of what ends it. -/
theorem number?_append {v : Json} (h : number? cs = some (v, r)) (hrest : EndsNumber rest) :
    number? (cs ++ rest) = some (v, r ++ rest) := by
  unfold number? at h
  split at h
  · exact unsignedNumber?_append h hrest
  · next hminus =>
    cases cs with
    | nil => cases h
    | cons c cs =>
      rw [number?]
      · exact unsignedNumber?_append h hrest
      · rintro _ heq
        obtain ⟨rfl, -⟩ := List.cons.inj heq
        exact hminus cs rfl

end Append

/-! ## Integers -/

/-- Digits that write a number of 64 bits are taken in to the last. -/
theorem significand_eq : ∀ (ds : List Char) {value : Nat},
    Nat.ofDigitChars 10 ds value ≤ greatest →
      significand value ds = (Nat.ofDigitChars 10 ds value, [])
  | [], value, _ => by rw [significand, Nat.ofDigitChars_nil]
  | d :: rest, value, h => by
    rw [Nat.ofDigitChars_cons] at h ⊢
    have hgrows : 10 * value + digitValue d ≤ greatest :=
      calc 10 * value + digitValue d
          ≤ 10 ^ rest.length * (10 * value + digitValue d) :=
            Nat.le_mul_of_pos_left _ (Nat.pow_pos (by decide))
        _ ≤ Nat.ofDigitChars 10 rest (10 * value + digitValue d) := by
            rw [Nat.ofDigitChars_eq_ofDigitChars_zero]
            exact Nat.le_add_right _ _
        _ ≤ greatest := h
    rw [significand, if_neg (Nat.not_lt.mpr hgrows)]
    exact significand_eq rest h

/-- No number but zero starts with the digit zero. -/
theorem toDigits_ne_zero_cons {n : Nat} (hn : 0 < n) (rest : List Char) :
    Nat.toDigits 10 n ≠ '0' :: rest := by
  induction n using Nat.strongRecOn generalizing rest with
  | _ n ih =>
    by_cases hlt : n < 10
    · rw [Nat.toDigits_of_lt_base hlt]
      rintro heq
      have hzero := Nat.digitChar_eq_zero.mp (List.cons.inj heq).1
      omega
    · rw [Nat.toDigits_of_base_le (by decide) (Nat.not_lt.mp hlt)]
      intro heq
      obtain ⟨d, ds, hds⟩ :=
        List.exists_cons_of_ne_nil (Nat.toDigits_ne_nil (n := n / 10) (b := 10))
      rw [hds] at heq
      obtain ⟨rfl, -⟩ := List.cons.inj heq
      exact ih (n / 10) (by omega) (by omega) ds hds

theorem wholeDigits?_repr (n : Nat) :
    wholeDigits? (Nat.repr n).toList = some ((Nat.repr n).toList, []) := by
  have hall := allDigits_repr n
  rw [Nat.toList_repr] at hall ⊢
  rcases Nat.eq_zero_or_pos n with rfl | hn
  · rw [Nat.toDigits_zero]
    rfl
  · have htake := List.takeWhile_eq_self_iff.mpr hall
    have hdrop := List.dropWhile_eq_nil_iff.mpr hall
    have hne : ¬(Nat.toDigits 10 n).isEmpty = true := by
      rw [List.isEmpty_iff]
      exact Nat.toDigits_ne_nil
    rw [wholeDigits?, htake, hdrop, if_neg hne]
    exact fun rest => toDigits_ne_zero_cons hn rest

/-- An integer that fits 64 bits is read as an integer. -/
theorem unsignedNumber?_repr {negative : Bool} {n : Nat} {m : Int}
    (h : fitting? negative (Nat.repr n).toList = some m) :
    unsignedNumber? negative (Nat.repr n).toList = some (.integer m, []) := by
  have hliteral : literal negative (Nat.repr n).toList [] none = .integer m := by
    rw [literal, List.isEmpty_nil, Option.isNone_none, Bool.and_self, if_pos rfl, h]
  rw [unsignedNumber?, wholeDigits?_repr]
  show some (literal negative (Nat.repr n).toList [] none, []) = _
  rw [hliteral]

theorem fitting?_repr (negative : Bool) {n : Nat} (h : n ≤ greatest) :
    fitting? negative (Nat.repr n).toList =
      if negative then
        if 0 < n && n ≤ 0x8000000000000000 then some (-(n : Int)) else none
      else some (n : Int) := by
  have hvalue : Nat.ofDigitChars 10 (Nat.repr n).toList 0 = n := by
    rw [Nat.toList_repr, Nat.ofDigitChars_ten_toDigits]
  rw [fitting?, significand_eq _ (by rwa [hvalue]), hvalue]

/-- An integer that fits 64 bits is read back. -/
theorem number?_toString {n : Int} (hlow : -0x8000000000000000 ≤ n) (hhigh : n ≤ greatest) :
    number? (toString n).toList = some (.integer n, []) := by
  cases n with
  | ofNat n =>
    have hle : n ≤ greatest := Int.ofNat_le.mp hhigh
    show number? (Nat.repr n).toList = _
    rw [number?]
    · exact unsignedNumber?_repr (fitting?_repr false hle)
    · intro rest heq
      have hdigit := allDigits_repr n '-' (heq ▸ List.mem_cons_self)
      cases hdigit
  | negSucc n =>
    have hle : n + 1 ≤ 0x8000000000000000 := by omega
    have hfits : fitting? true (Nat.repr (n + 1)).toList = some (Int.negSucc n) := by
      rw [fitting?_repr true (hle.trans (by decide)), if_pos rfl, if_pos (by simpa using hle)]
      rfl
    show number? ("-" ++ Nat.repr (n + 1)).toList = _
    rw [String.toList_append]
    exact unsignedNumber?_repr hfits

end Catalogue.Json
