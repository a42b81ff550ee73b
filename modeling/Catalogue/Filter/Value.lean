import Catalogue.Geometry.Shape
import Catalogue.Text.Quoted
import Catalogue.Time.Reading
import Catalogue.Time.Writing

/-!
# Operands of a predicate

The value an attribute is tested against: a text, a number of one of five widths, an instant, a
region, or nothing.
-/

namespace Catalogue.Filter

open Catalogue.Geometry
open Catalogue.Number
open Catalogue.Time

/-- What an attribute is tested against. -/
inductive Value where
  | text (s : String)
  | short (n : Int16)
  | int (n : Int32)
  | long (n : Int64)
  | float (x : Single)
  | double (x : Float)
  | date (t : Instant)
  | geometry (r : Region)
  /-- No operand. -/
  | null

namespace Value

/-- The name of the kind of a value. -/
def kind : Value → String
  | text _ => "text"
  | short _ => "short"
  | int _ => "int"
  | long _ => "long"
  | float _ => "float"
  | double _ => "double"
  | date _ => "date"
  | geometry _ => "geometry"
  | null => "null"

def isNumeric : Value → Bool
  | short _ => true
  | int _ => true
  | long _ => true
  | float _ => true
  | double _ => true
  | _ => false

/-- The written form of a value; a text stands between single quotes. -/
def display : Value → String
  | text s => Text.quote s
  | short n => toString n.toInt
  | int n => toString n.toInt
  | long n => toString n.toInt
  | float x => x.text
  | double x => Number.text x
  | date t => t.secondStamp
  | geometry r => r.text
  | null => "null"

/-- The content of a value in serialised form. -/
def content : Value → Option Json
  | text s => some (.string s)
  | short n => some (.integer n.toInt)
  | int n => some (.integer n.toInt)
  | long n => some (.integer n.toInt)
  | float x => some (.ofFloat x.value)
  | double x => some (.ofFloat x)
  | date t => some (.string t.stamp)
  | geometry r => some r.toJson
  | null => none

def toJson (v : Value) : Json :=
  match v.content with
  | none => .object [("type", .string v.kind)]
  | some c => .object [("type", .string v.kind), ("value", c)]

/-- The value of a named kind with a given content. -/
def ofKind? (kind : String) (c : Option Json) : Option Value :=
  match kind with
  | "text" => (Json.content? Json.string? c).map text
  | "short" => (Json.content? Json.int16? c).map short
  | "int" => (Json.content? Json.int32? c).map int
  | "long" => (Json.content? Json.int64? c).map long
  | "float" => (Json.content? Json.single? c).map float
  | "double" => (Json.content? Json.float? c).map double
  | "date" => (Json.content? (fun v => v.string?.bind stamp?) c).map date
  | "geometry" => (Json.content? Region.ofJson? c).map geometry
  | "null" => (Json.noContent? c).map fun _ => null
  | _ => none

def ofJson? (v : Json) : Option Value := do
  let (kind, c) ← v.tagged? "type" "value"
  ofKind? kind c

end Value

end Catalogue.Filter
