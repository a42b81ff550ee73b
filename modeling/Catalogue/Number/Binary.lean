import Catalogue.Number.Numeral

/-!
# Binary numbers taken apart

A finite float is `± mantissa · 2 ^ exponent`. Everything that prints or narrows a float works on
these integers, so that it is exact.

* `form` — the parts of a binary64 number.
* `Single` — the binary64 numbers that binary32 holds exactly.
-/

namespace Catalogue.Number

/-! ## Parts -/

/-- The magnitude of a binary number. -/
inductive Form where
  | finite (mantissa : Nat) (exponent : Int)
  | infinite
  | undefined
  deriving DecidableEq, Repr

/-- Whether the sign bit is set. -/
def isNegative (x : Float) : Bool := 0x8000000000000000 ≤ x.toBits.toNat

/-- The magnitude of a binary64 number. -/
def form (x : Float) : Form :=
  let bits := x.toBits.toNat
  let biased := bits / 0x10000000000000 % 0x800
  let fraction := bits % 0x10000000000000
  if biased == 2047 then (if fraction == 0 then .infinite else .undefined)
  else if biased == 0 then .finite fraction (-1074)
  else .finite (fraction + 0x10000000000000) (Int.ofNat biased - 1075)

/-- The magnitude of a binary32 number. -/
def singleForm (x : Float32) : Form :=
  let bits := x.toBits.toNat
  let biased := bits / 0x800000 % 0x100
  let fraction := bits % 0x800000
  if biased == 255 then (if fraction == 0 then .infinite else .undefined)
  else if biased == 0 then .finite fraction (-149)
  else .finite (fraction + 0x800000) (Int.ofNat biased - 150)

/-- `mantissa · 2 ^ exponent` as digits and a power of ten, exactly. -/
def asDecimal (mantissa : Nat) (exponent : Int) : Nat × Int :=
  if 0 ≤ exponent then (mantissa <<< exponent.toNat, 0)
  else (mantissa * Nat.pow 5 (-exponent).toNat, exponent)

/-- The float with the given sign and magnitude. -/
def ofForm (negative : Bool) : Form → Float
  | .finite m q =>
    let (digits, exponent) := asDecimal m q
    (Decimal.finite negative digits exponent).toFloat
  | .infinite => (Decimal.infinite negative).toFloat
  | .undefined => Decimal.undefined.toFloat

/-! ## Integers of a float -/

/-- The part of a finite magnitude before the binary point. -/
def wholePart (x : Float) : Nat :=
  match form x with
  | .finite m q => if 0 ≤ q then m <<< q.toNat else m >>> (-q).toNat
  | _ => 0

/-- The integer nearest to a finite magnitude, halves away from zero. -/
def roundedMagnitude (x : Float) : Nat :=
  match form x with
  | .finite m q =>
    if 0 ≤ q then m <<< q.toNat
    else
      let unit := 1 <<< (-q).toNat
      (2 * m + unit) / (2 * unit)
  | _ => 0

/-! ## Single precision -/

/-- The binary32 number nearest to `digits · 10 ^ exponent`, ties to even, as a magnitude. -/
def nearestSingle (digits : Nat) (exponent : Int) : Form :=
  if digits == 0 then .finite 0 (-149)
  else
    let magnitude := exponent + digitCount digits
    if 400 < magnitude then .infinite
    else if magnitude < -400 then .finite 0 (-149)
    else singleForm (Float32.ofScientific digits (exponent < 0) exponent.natAbs)

/-- The binary32 number a decimal denotes, held as a binary64 number. -/
def Decimal.toNarrow : Decimal → Float
  | .finite negative digits exponent => ofForm negative (nearestSingle digits exponent)
  | d => d.toFloat

/-- Rounds a binary64 number to binary32. -/
def narrow (x : Float) : Float :=
  match form x with
  | .finite m q =>
    let (digits, exponent) := asDecimal m q
    (Decimal.finite (isNegative x) digits exponent).toNarrow
  | _ => x

/-- A binary64 number that binary32 holds exactly. -/
structure Single where
  value : Float
  narrow_value : narrow value = value

namespace Single

/-- The least precise reading of a float: `x` itself if binary32 holds it. -/
def ofNarrow (x : Float) : Single :=
  if h : narrow x = x then ⟨x, h⟩ else ⟨0.0 / 0.0, by decide⟩

/-- Rounds a binary64 number to binary32. -/
def ofFloat (x : Float) : Single := ofNarrow (narrow x)

/-- Reads a whole text as a binary32 number. -/
def read? (s : String) : Option Single := (decimal? s).map (ofNarrow ·.toNarrow)

end Single

end Catalogue.Number
