import Catalogue.Geometry.Coordinate
import Catalogue.Number.Binary
import Catalogue.Schema.Attribute
import Catalogue.Time.Instant

/-!
# Values in a record graph

The value of a leaf: a text, a number of one of six kinds, a truth value, a timestamp or a box. A
timestamp has its parts apart and need not name an instant.

* `Timestamp.ofInstant` and `Timestamp.instant?` — between instants and timestamps; a leap second
  has a timestamp that names no instant.
-/

namespace Catalogue.Graph

open Catalogue.Geometry
open Catalogue.Number
open Catalogue.Schema (Kind)
open Catalogue.Time

/-! ## Timestamps -/

/-- The parts of a moment in universal time; the seconds have a fraction. -/
structure Timestamp where
  year : Int32
  month : UInt32
  day : UInt32
  hour : UInt32
  minute : UInt32
  second : Float
  deriving DecidableEq

namespace Timestamp

/-- The parts of an instant; inside a leap second the seconds are 60 or more. -/
def ofInstant (t : Instant) : Timestamp :=
  let date := t.date
  { year := Int32.ofInt date.year
    month := UInt32.ofNat date.month
    day := UInt32.ofNat date.day
    hour := UInt32.ofNat t.hour
    minute := UInt32.ofNat t.minute
    second := t.secondOfMinute.toFloat + t.nanos.toFloat / 1e9 }

/-- The nanoseconds in the fraction of a number of seconds, less than one second. -/
def fractionNanos (second : Float) : Nat :=
  min (roundedMagnitude ((second - (wholePart second).toFloat) * 1e9)) 999999999

/-- The instant with these parts, if they name one. -/
def instant? (s : Timestamp) : Option Instant :=
  if s.second.isFinite && 0.0 ≤ s.second && s.second < 60.0 then
    Instant.ofParts? ⟨s.year.toInt, s.month.toNat, s.day.toNat⟩ s.hour.toNat s.minute.toNat
      (wholePart s.second) (fractionNanos s.second)
  else none

/-- Equality of the parts, in which the two zeros are equal. -/
def same (a b : Timestamp) : Bool :=
  a.year == b.year && a.month == b.month && a.day == b.day && a.hour == b.hour
    && a.minute == b.minute && a.second == b.second

/-- The parts with their names, as reports show them. -/
def describe (s : Timestamp) : String :=
  "AbsTime \x7b year: " ++ toString s.year.toInt ++ ", month: " ++ toString s.month.toNat
    ++ ", day: " ++ toString s.day.toNat ++ ", hour: " ++ toString s.hour.toNat
    ++ ", minute: " ++ toString s.minute.toNat ++ ", second: " ++ fractionText s.second ++ " \x7d"

def toJson (s : Timestamp) : Json :=
  .object [("year", .integer s.year.toInt), ("month", .integer s.month.toNat),
    ("day", .integer s.day.toNat), ("hour", .integer s.hour.toNat),
    ("minute", .integer s.minute.toNat), ("second", .ofFloat s.second)]

def ofJson? (v : Json) : Option Timestamp := do
  let [year, month, day, hour, minute, second] ←
    v.fields? ["year", "month", "day", "hour", "minute", "second"] | none
  return {
    year := ← Json.required? Json.int32? year
    month := ← Json.required? Json.uint32? month
    day := ← Json.required? Json.uint32? day
    hour := ← Json.required? Json.uint32? hour
    minute := ← Json.required? Json.uint32? minute
    second := ← Json.required? Json.float? second }

end Timestamp

/-! ## Values -/

/-- The value of a leaf. -/
inductive Value where
  | text (s : String)
  | short (n : Int16)
  | ushort (n : UInt16)
  | int (n : Int32)
  | uint (n : UInt32)
  | long (n : Int64)
  | double (x : Float)
  | bool (b : Bool)
  | date (s : Timestamp)
  | rectangle (b : Box)
  deriving DecidableEq

namespace Value

def kind : Value → Kind
  | text _ => .text
  | short _ => .short
  | ushort _ => .ushort
  | int _ => .int
  | uint _ => .uint
  | long _ => .long
  | double _ => .double
  | bool _ => .bool
  | date _ => .date
  | rectangle _ => .rectangle

def text? : Value → Option String
  | text s => some s
  | _ => none

/-- An integer of any kind, widened. -/
def integer? : Value → Option Int64
  | short n => some n.toInt64
  | ushort n => some (Int64.ofInt n.toNat)
  | int n => some n.toInt64
  | uint n => some (Int64.ofInt n.toNat)
  | long n => some n
  | _ => none

/-- A float, or the float nearest to an integer of any kind. -/
def float? : Value → Option Float
  | double x => some x
  | v => v.integer?.map fun n => (Decimal.finite (n < 0) n.toInt.natAbs 0).toFloat

def bool? : Value → Option Bool
  | bool b => some b
  | _ => none

def date? : Value → Option Timestamp
  | date s => some s
  | _ => none

def rectangle? : Value → Option Box
  | rectangle b => some b
  | _ => none

/-- Equality in which the two zeros are equal. -/
def same : Value → Value → Bool
  | double x, double y => x == y
  | date a, date b => a.same b
  | rectangle a, rectangle b => a.same b
  | a, b => a = b

def content : Value → Json
  | text s => .string s
  | short n => .integer n.toInt
  | ushort n => .integer n.toNat
  | int n => .integer n.toInt
  | uint n => .integer n.toNat
  | long n => .integer n.toInt
  | double x => .ofFloat x
  | bool b => .bool b
  | date s => s.toJson
  | rectangle b => b.toJson

def toJson (v : Value) : Json :=
  .object [("type", .string v.kind.name), ("value", v.content)]

/-- The value of a kind with a given content. -/
def ofKind? (k : Kind) (c : Option Json) : Option Value :=
  match k with
  | .text => (Json.content? Json.string? c).map text
  | .short => (Json.content? Json.int16? c).map short
  | .ushort => (Json.content? Json.uint16? c).map ushort
  | .int => (Json.content? Json.int32? c).map int
  | .uint => (Json.content? Json.uint32? c).map uint
  | .long => (Json.content? Json.int64? c).map long
  | .double => (Json.content? Json.float? c).map double
  | .bool => (Json.content? Json.bool? c).map bool
  | .date => (Json.content? Timestamp.ofJson? c).map date
  | .rectangle => (Json.content? Box.ofJson? c).map rectangle

def ofJson? (v : Json) : Option Value := do
  let (name, c) ← v.tagged? "type" "value"
  ofKind? (← Kind.ofName? name) c

end Value

end Catalogue.Graph
