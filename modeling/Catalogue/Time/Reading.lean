import Catalogue.Text.Blank
import Catalogue.Number.Numeral
import Catalogue.Time.Instant

/-!
# Instants read from text

Two notations are read. A date literal is `yyyy/MM/dd` with or without `HH:mm:ss`, in universal
time. A stamp is `yyyy-MM-ddTHH:mm:ss`, an optional fraction and an offset from universal time.
In both, blanks may stand before every number; a year has at most four digits, or any number of
them after a sign, and every other number has one or two.

* `literal?` — reads a whole text as a date literal.
* `stamp?` — reads a whole text as a stamp.

Each reader takes the characters that are left and returns what it read with the rest.
-/

namespace Catalogue.Time

open Catalogue.Text
open Catalogue.Number

/-! ## Pieces -/

/-- Takes between one and `most` digits. -/
def upTo? (most : Nat) (cs : List Char) : Option (Nat × List Char) :=
  let ds := (cs.takeWhile isDigit).take most
  if ds.isEmpty then none else some (digitsValue ds, cs.drop ds.length)

/-- Takes at least one digit and every digit that follows. -/
def allDigits? (cs : List Char) : Option (Nat × List Char) := upTo? cs.length cs

/-- A year: any number of digits after a sign, at most four without one. -/
def year? (cs : List Char) : Option (Int × List Char) :=
  match trimStart cs with
  | '-' :: rest => (allDigits? rest).map fun (n, r) => (-(n : Int), r)
  | '+' :: rest => (allDigits? rest).map fun (n, r) => ((n : Int), r)
  | rest => (upTo? 4 rest).map fun (n, r) => ((n : Int), r)

/-- One or two digits after any number of blanks. -/
def pair? (cs : List Char) : Option (Nat × List Char) := upTo? 2 (trimStart cs)

/-- Takes exactly the character `c`. -/
def mark? (c : Char) : List Char → Option (List Char)
  | d :: rest => if d == c then some rest else none
  | [] => none

/-- Year, month and day with a separator between them; `gap` is dropped before each separator. -/
def date? (sep : Char) (gap : List Char → List Char) (cs : List Char) :
    Option (Date × List Char) := do
  let (year, cs) ← year? cs
  let (month, cs) ← pair? (← mark? sep (gap cs))
  let (day, cs) ← pair? (← mark? sep (gap cs))
  return (⟨year, month, day⟩, cs)

/-- Hour, minute and second with colons between them; `gap` is dropped before each colon. -/
def clock? (gap : List Char → List Char) (cs : List Char) :
    Option ((Nat × Nat × Nat) × List Char) := do
  let (hour, cs) ← pair? cs
  let (minute, cs) ← pair? (← mark? ':' (gap cs))
  let (second, cs) ← pair? (← mark? ':' (gap cs))
  return ((hour, minute, second), cs)

/-! ## Date literals -/

/-- A date and a time of day, with any number of blanks between them. -/
def dateTimeLiteral? (cs : List Char) : Option Instant := do
  let (date, cs) ← date? '/' id cs
  let ((hour, minute, second), cs) ← clock? id (trimStart cs)
  if cs.isEmpty then Instant.ofParts? date hour minute second 0 else none

/-- A date alone: the first instant of its day. -/
def dateLiteral? (cs : List Char) : Option Instant := do
  let (date, cs) ← date? '/' id cs
  if cs.isEmpty then Instant.ofParts? date 0 0 0 0 else none

/-- Reads `yyyy/MM/dd HH:mm:ss`, or else `yyyy/MM/dd`; blanks at the ends are dropped. -/
def literal? (s : String) : Option Instant :=
  let cs := trimChars s.toList
  (dateTimeLiteral? cs).or (dateLiteral? cs)

/-! ## Stamps -/

/-- The fraction of a second in nanoseconds; digits after the ninth are dropped. -/
def fraction? : List Char → Option (Nat × List Char)
  | '.' :: rest =>
    let ds := rest.takeWhile isDigit
    if ds.isEmpty then none
    else
      let kept := ds.take 9
      some (digitsValue kept * Nat.pow 10 (9 - kept.length), rest.dropWhile isDigit)
  | cs => some (0, cs)

/-- Two digits, without blanks. -/
def twoDigits? : List Char → Option (Nat × List Char)
  | a :: b :: rest =>
    if isDigit a && isDigit b then some (10 * digitValue a + digitValue b, rest) else none
  | _ => none

/-- Hours and minutes of an offset, with colons and blanks between them, as seconds. -/
def offsetDigits? (cs : List Char) : Option (Nat × List Char) := do
  let (hours, cs) ← twoDigits? cs
  let (minutes, cs) ← twoDigits? (cs.dropWhile fun c => c == ':' || isBlank c)
  if minutes < 60 then return (hours * 3600 + minutes * 60, cs) else none

/-- The offset of a stamp in seconds: `Z`, `UTC` in any letter case, or a sign with digits. -/
def offset? (cs : List Char) : Option (Int × List Char) :=
  if upper (String.ofList (cs.take 3)) == "UTC" then some (0, cs.drop 3)
  else
    match cs with
    | [] => none
    | c :: rest =>
      if c == 'Z' || c == 'z' then some (0, rest)
      else if c == '+' then (offsetDigits? rest).map fun (n, r) => ((n : Int), r)
      else if c == '-' || c == '\u2212' then (offsetDigits? rest).map fun (n, r) => (-(n : Int), r)
      else none

/-- Takes the mark between the date and the time of a stamp: `T`, `t` or a space. -/
def timeMark? : List Char → Option (List Char)
  | c :: rest => if c == 'T' || c == 't' || c == ' ' then some rest else none
  | [] => none

/-- Reads a stamp, moved to universal time. An offset is less than one day. -/
def stamp? (s : String) : Option Instant := do
  let (date, cs) ← date? '-' trimStart s.toList
  let ((hour, minute, second), cs) ← clock? trimStart (← timeMark? cs)
  let (nanos, cs) ← fraction? cs
  let (offset, cs) ← offset? (trimStart cs)
  let moment ← Instant.ofParts? date hour minute second nanos
  if (trimStart cs).isEmpty && offset.natAbs < 86400 then moment.shift? (-offset) else none

end Catalogue.Time
