import Catalogue.Number.Binary

/-!
# The shortest decimal of a float

Of the decimals that read back as a given float, the one with the fewest digits; of several with as
few, the nearest; of two at the same distance, the larger or the even one. The reals that read back
as `m · 2 ^ q` reach halfway to its two neighbours, ends included when `m` is even. Decimals are
tried on ever finer grids `10 ^ k`: if a point of a grid reads back, then so does one of the float's
two neighbours on that grid. All comparisons are of naturals.

* `shortest` — the digits and the power of ten.
* `text` — positional notation, never with an exponent.
-/

namespace Catalogue.Number

/-! ## Digits -/

/-- The size of the mantissa and the least exponent of a binary format. -/
structure Precision where
  bits : Nat
  least : Int
  deriving DecidableEq, Repr

def Precision.double : Precision := ⟨53, -1074⟩

def Precision.single : Precision := ⟨24, -149⟩

/-- Drops the low bits of a mantissa that a format has no room for. -/
def Precision.fit (p : Precision) (m : Nat) (q : Int) : Nat × Int :=
  let d := (max (Int.ofNat (m.log2 + 1) - p.bits) (p.least - q)).toNat
  (m >>> d, q + d)

/-- Removes the zeros at the end of the digits. -/
def stripZeros (digits : Nat) (exponent : Int) : Nat × Int :=
  if _h : digits ≠ 0 ∧ digits % 10 = 0 then stripZeros (digits / 10) (exponent + 1)
  else (digits, exponent)
termination_by digits
decreasing_by exact Nat.div_lt_self (by omega) (by omega)

/--
The power of ten just above `m · 2 ^ q`: how many digits stand before its point. For a negative `q`
the digits are those of `m · 5 ^ (-q)`, since `2 ^ q = 5 ^ (-q) · 10 ^ q`.
-/
def decimalMagnitude (m : Nat) (q : Int) : Int :=
  if 0 ≤ q then digitCount (m <<< q.toNat)
  else digitCount (m * Nat.pow 5 (-q).toNat) + q

/-- Which of two decimals at the same distance is taken. -/
inductive Tie where
  | larger
  | even
  deriving DecidableEq, Repr

/-- The decimal taken of `below` and its successor. -/
def Tie.choose (t : Tie) (below : Nat) : Nat :=
  match t with
  | larger => below + 1
  | even => below + below % 2

/-- The neighbour of `m · 2 ^ q` on the grid `10 ^ k` that reads back, if one does. -/
def onGrid? (t : Tie) (p : Precision) (m : Nat) (q k : Int) : Option Nat :=
  let grid := Nat.pow 10 k.toNat <<< (2 - q).toNat
  let scale := Nat.pow 10 (-k).toNat <<< (q - 2).toNat
  let low := (4 * m - (if m == 1 <<< (p.bits - 1) && p.least < q then 1 else 2)) * scale
  let high := (4 * m + 2) * scale
  let value := 4 * m * scale
  let readsBack := fun n : Nat =>
    if m % 2 == 0 then low ≤ n * grid && n * grid ≤ high else low < n * grid && n * grid < high
  let below := value / grid
  let above := below + 1
  match readsBack below, readsBack above with
  | true, true =>
    match compare (2 * value) ((below + above) * grid) with
    | .lt => some below
    | .eq => some (t.choose below)
    | .gt => some above
  | true, false => some below
  | false, true => some above
  | false, false => none

/-- The digits and power of ten of the shortest decimal that reads back as `m · 2 ^ q`. -/
def shortest (t : Tie) (p : Precision) (m : Nat) (q : Int) : Nat × Int :=
  if m == 0 then (0, 0)
  else
    let top := decimalMagnitude m q
    let found := (List.range 17).findSome? fun i : Nat =>
      let k := top - 1 - Int.ofNat i
      (onGrid? t p m q k).map (stripZeros · k)
    found.getD (0, 0)

/-! ## Notation -/

/-- `digits · 10 ^ exponent` with a point and no exponent. -/
def positional (digits : Nat) (exponent : Int) : String :=
  let ds := (Nat.repr digits).toList
  if 0 ≤ exponent then String.ofList (ds ++ List.replicate exponent.toNat '0')
  else
    let places := (-exponent).toNat
    let padded := List.replicate (places + 1 - ds.length) '0' ++ ds
    let whole := padded.length - places
    String.ofList (padded.take whole ++ '.' :: padded.drop whole)

/-- `digits · 10 ^ exponent` with one digit before the point and a power of ten. -/
def scientific (digits : Nat) (exponent : Int) : String :=
  match (Nat.repr digits).toList with
  | [] => ""
  | d :: ds =>
    let point := if ds.isEmpty then [] else '.' :: ds
    String.ofList (d :: point) ++ "e" ++ toString (exponent + ds.length)

/-- Puts the sign in front of a magnitude. -/
def signed (negative : Bool) (magnitude : String) : String :=
  if negative then "-" ++ magnitude else magnitude

/-- The text of a float of the given precision, its finite magnitudes written by `layout`. -/
def textBy (layout : Nat → Int → String) (t : Tie) (p : Precision) (x : Float) : String :=
  match form x with
  | .undefined => "NaN"
  | .infinite => signed (isNegative x) "inf"
  | .finite m q =>
    let (m, q) := p.fit m q
    let (digits, exponent) := shortest t p m q
    signed (isNegative x) (layout digits exponent)

/-- The shortest text that reads back as the binary64 number, without an exponent. -/
def text (x : Float) : String := textBy positional .larger .double x

/-- The shortest text that reads back as the binary32 number, without an exponent. -/
def Single.text (x : Single) : String := textBy positional .larger .single x.value

/--
A finite magnitude that shows a fraction: positional from `10 ^ -4` up to `10 ^ 16`, with `.0` after
a whole number, and with a power of ten elsewhere.
-/
def withFraction (digits : Nat) (exponent : Int) : String :=
  let magnitude := exponent + digitCount digits
  if digits ≠ 0 ∧ (magnitude < -3 ∨ 16 < magnitude) then scientific digits exponent
  else if 0 ≤ exponent then positional digits exponent ++ ".0"
  else positional digits exponent

/-- The shortest text of a binary64 number in which a whole number still shows a fraction. -/
def fractionText (x : Float) : String := textBy withFraction .larger .double x

end Catalogue.Number
