import Catalogue.Time.Instant

/-!
# Instants written as text

`yyyy-MM-ddTHH:mm:ss`, a fraction of 0, 3, 6 or 9 digits as needed, and the offset of universal
time. A year outside 0 to 9999 has a sign; a leap second is written `:60`.
-/

namespace Catalogue.Time

/-- A natural number with zeros in front up to a width. -/
def padded (width n : Nat) : String :=
  let ds := Nat.repr n
  String.ofList (List.replicate (width - ds.length) '0') ++ ds

/-- A year with at least four digits, and with a sign outside 0 to 9999. -/
def yearText (year : Int) : String :=
  if 0 ≤ year ∧ year ≤ 9999 then padded 4 year.toNat
  else (if year < 0 then "-" else "+") ++ padded 4 year.natAbs

/-- A fraction in nanoseconds with the fewest of 0, 3, 6 or 9 digits. -/
def fractionText (nanos : Nat) : String :=
  if nanos == 0 then ""
  else if nanos % 1000000 == 0 then "." ++ padded 3 (nanos / 1000000)
  else if nanos % 1000 == 0 then "." ++ padded 6 (nanos / 1000)
  else "." ++ padded 9 nanos

namespace Instant

/-- Date and time of day to the second. -/
def clockText (t : Instant) : String :=
  let date := t.date
  let second := if t.isLeap then t.secondOfMinute + 1 else t.secondOfMinute
  yearText date.year ++ "-" ++ padded 2 date.month ++ "-" ++ padded 2 date.day ++ "T"
    ++ padded 2 t.hour ++ ":" ++ padded 2 t.minute ++ ":" ++ padded 2 second

/-- The fraction of the second. -/
def subsecondText (t : Instant) : String := fractionText (t.nanos % 1000000000)

/-- The stamp with the fraction as needed and the letter of universal time. -/
def stamp (t : Instant) : String := t.clockText ++ t.subsecondText ++ "Z"

/-- The stamp with the fraction as needed and a numeric offset. -/
def offsetStamp (t : Instant) : String := t.clockText ++ t.subsecondText ++ "+00:00"

/-- The stamp to the second. -/
def secondStamp (t : Instant) : String := t.clockText ++ "Z"

end Instant

end Catalogue.Time
