import Catalogue.Geometry.Error
import Catalogue.Number.Shortest
import Catalogue.Json.Shape

/-!
# Coordinates and boxes

A coordinate is a latitude and a longitude in degrees. In a written position the longitude comes
first; `Coordinate.position` is the only place where the order is turned.

* `Box.ring` — the closed ring of a box: upper left, upper right, lower right, lower left, upper
  left.
-/

namespace Catalogue.Geometry

open Catalogue.Text
open Catalogue.Number

/-! ## Coordinates -/

/-- A position in decimal degrees. -/
structure Coordinate where
  lat : Float
  lon : Float
  deriving DecidableEq

/-- Reads a finite number of degrees; blanks at the ends are dropped. -/
def degrees (s : String) : Except GeometryError Float :=
  match finite? (trim s) with
  | some x => .ok x
  | none => .error (.invalidCoordinate (trim s))

namespace Coordinate

/-- Reads a coordinate from the texts of its latitude and its longitude. -/
def ofTexts (lat lon : String) : Except GeometryError Coordinate := do
  return { lat := ← degrees lat, lon := ← degrees lon }

/-- The longitude, a space and the latitude. -/
def position (c : Coordinate) : String := text c.lon ++ " " ++ text c.lat

/-- Equality of both numbers, in which the two zeros are equal. -/
def same (a b : Coordinate) : Bool := a.lat == b.lat && a.lon == b.lon

/-- Whether both numbers are finite. -/
def isFinite (c : Coordinate) : Bool := c.lat.isFinite && c.lon.isFinite

def toJson (c : Coordinate) : Json :=
  .object [("lat", .ofFloat c.lat), ("lon", .ofFloat c.lon)]

def ofJson? (v : Json) : Option Coordinate := do
  let [lat, lon] ← v.fields? ["lat", "lon"] | none
  return { lat := ← Json.required? Json.float? lat, lon := ← Json.required? Json.float? lon }

end Coordinate

/-! ## Boxes -/

/-- An axis-aligned box given by two opposite corners. -/
structure Box where
  upperLeft : Coordinate
  lowerRight : Coordinate
  deriving DecidableEq

namespace Box

/-- Whether both corners are the same position. -/
def isPoint (b : Box) : Bool := b.upperLeft.same b.lowerRight

/-- The corners in order, with the first one again at the end. -/
def ring (b : Box) : List Coordinate :=
  [b.upperLeft, ⟨b.upperLeft.lat, b.lowerRight.lon⟩, b.lowerRight,
    ⟨b.lowerRight.lat, b.upperLeft.lon⟩, b.upperLeft]

/-- Equality of both corners, in which the two zeros are equal. -/
def same (a b : Box) : Bool :=
  a.upperLeft.same b.upperLeft && a.lowerRight.same b.lowerRight

def toJson (b : Box) : Json :=
  .object [("upper_left", b.upperLeft.toJson), ("lower_right", b.lowerRight.toJson)]

def ofJson? (v : Json) : Option Box := do
  let [upperLeft, lowerRight] ← v.fields? ["upper_left", "lower_right"] | none
  return {
    upperLeft := ← Json.required? Coordinate.ofJson? upperLeft
    lowerRight := ← Json.required? Coordinate.ofJson? lowerRight }

end Box

end Catalogue.Geometry
