import Catalogue.Text.Blank

/-!
# Numerals

The grammar of numbers in text. An integer is an optional sign and decimal digits. A decimal is an
optional sign, digits with an optional point (one side of it may be empty) and an optional
exponent; or one of the words `inf`, `infinity` and `nan` in any letter case. No blank and no
other character is accepted.

* `integer?` — the integer an integer numeral denotes.
* `decimal?` — the sign, digits and power of ten of a decimal numeral.
* `Decimal.toFloat` — the nearest binary64 number, ties to even.
-/

namespace Catalogue.Number

open Catalogue.Text

/-! ## Digits and integers -/

/-- The natural number written by a list of decimal digits. -/
def digitsValue (cs : List Char) : Nat := cs.foldl (fun n c => 10 * n + digitValue c) 0

/-- Reads a non-empty list of digits. -/
def natural? (cs : List Char) : Option Nat :=
  if !cs.isEmpty && cs.all isDigit then some (digitsValue cs) else none

/-- Reads an optional sign and a non-empty list of digits. -/
def integerChars? : List Char → Option Int
  | '-' :: rest => (natural? rest).map (fun n => -(n : Int))
  | '+' :: rest => (natural? rest).map Int.ofNat
  | cs => (natural? cs).map Int.ofNat

/-- The integer a whole text denotes. -/
def integer? (s : String) : Option Int := integerChars? s.toList

/-! ## Decimals -/

/-- What a decimal numeral denotes: `±digits · 10 ^ exponent`, an infinity, or no number. -/
inductive Decimal where
  | finite (negative : Bool) (digits : Nat) (exponent : Int)
  | infinite (negative : Bool)
  | undefined
  deriving DecidableEq, Repr

/-- Reads the part after the digits: nothing, or `e` and a signed integer. -/
def exponent? : List Char → Option Int
  | [] => some 0
  | c :: rest => if c == 'e' || c == 'E' then integerChars? rest else none

/-- Reads a decimal without its sign. -/
def unsigned? (negative : Bool) (cs : List Char) : Option Decimal :=
  let word := lower (String.ofList cs)
  if word == "inf" || word == "infinity" then some (.infinite negative)
  else if word == "nan" then some .undefined
  else
    let whole := cs.takeWhile isDigit
    let rest := cs.dropWhile isDigit
    let (fraction, rest) :=
      match rest with
      | '.' :: r => (r.takeWhile isDigit, r.dropWhile isDigit)
      | r => ([], r)
    if whole.isEmpty && fraction.isEmpty then none
    else
      (exponent? rest).map fun e =>
        .finite negative (digitsValue (whole ++ fraction)) (e - fraction.length)

/-- Reads a whole text as a decimal. -/
def decimal? (s : String) : Option Decimal :=
  match s.toList with
  | '-' :: rest => unsigned? true rest
  | '+' :: rest => unsigned? false rest
  | cs => unsigned? false cs

/-! ## The nearest float -/

/-- How many decimal digits a natural number has; `0` has one. -/
def digitCount (n : Nat) : Nat := (Nat.repr n).length

/-- Positive infinity. -/
def infinity : Float := 1.0 / 0.0

/--
The binary64 number nearest to `digits · 10 ^ exponent`. Far outside the range of the format the
power of ten is not computed: the number is then above every float, or below half the least one.
-/
def nearestFloat (digits : Nat) (exponent : Int) : Float :=
  if digits == 0 then 0.0
  else
    let magnitude := exponent + digitCount digits
    if 400 < magnitude then infinity
    else if magnitude < -400 then 0.0
    else Float.ofScientific digits (exponent < 0) exponent.natAbs

/-- The float a decimal denotes. -/
def Decimal.toFloat : Decimal → Float
  | .finite negative digits exponent =>
    let x := nearestFloat digits exponent
    if negative then -x else x
  | .infinite negative => if negative then -infinity else infinity
  | .undefined => 0.0 / 0.0

/-- Reads a whole text as a binary64 number. -/
def float? (s : String) : Option Float := (decimal? s).map Decimal.toFloat

/-- Reads a whole text as a finite binary64 number. -/
def finite? (s : String) : Option Float := (float? s).filter Float.isFinite

/-! ## Fixed-width integers -/

/-- The integer as a 16-bit number, when it is in range. -/
def int16? (n : Int) : Option Int16 :=
  if -0x8000 ≤ n ∧ n < 0x8000 then some (Int16.ofInt n) else none

/-- The integer as a 32-bit number, when it is in range. -/
def int32? (n : Int) : Option Int32 :=
  if -0x80000000 ≤ n ∧ n < 0x80000000 then some (Int32.ofInt n) else none

/-- The integer as a 64-bit number, when it is in range. -/
def int64? (n : Int) : Option Int64 :=
  if -0x8000000000000000 ≤ n ∧ n < 0x8000000000000000 then some (Int64.ofInt n) else none

/-- The integer as an unsigned 16-bit number, when it is in range. -/
def uint16? (n : Int) : Option UInt16 :=
  if 0 ≤ n ∧ n < 0x10000 then some (UInt16.ofNat n.toNat) else none

/-- The integer as an unsigned 32-bit number, when it is in range. -/
def uint32? (n : Int) : Option UInt32 :=
  if 0 ≤ n ∧ n < 0x100000000 then some (UInt32.ofNat n.toNat) else none

end Catalogue.Number
