import Catalogue.Geometry.Ellipse
import Catalogue.Geometry.Wkt

/-!
# Shapes of a query

A shape is collected part by part, in the order of the query, and then finished: its text, and for
a circle the radius around its centre.

* `Region` — a finished shape.
* `Draft.finish` — succeeds exactly when the shape has the parts that it needs.
-/

namespace Catalogue.Geometry

open Catalogue.Number

/-! ## Kinds -/

/-- The shapes a query may name. -/
inductive Shape where
  | point
  | polygon
  | rectangle
  | line
  | circle
  | ellipse
  deriving DecidableEq, Repr

namespace Shape

def keyword : Shape → String
  | point => "POINT"
  | polygon => "POLYGON"
  | rectangle => "RECTANGLE"
  | line => "LINE"
  | circle => "CIRCLE"
  | ellipse => "ELLIPSE"

/-- The name of a kind in serialised form. -/
def name : Shape → String
  | point => "point"
  | polygon => "polygon"
  | rectangle => "rectangle"
  | line => "line"
  | circle => "circle"
  | ellipse => "ellipse"

def all : List Shape := [point, polygon, rectangle, line, circle, ellipse]

def ofName? (s : String) : Option Shape := all.find? (fun k => k.name == s)

end Shape

/-! ## Finished shapes -/

/-- The text of a geometry and, for a buffered one, the radius around it in meters. -/
structure Region where
  wkt : String
  radius : Option Float := none
  deriving DecidableEq

namespace Region

/-- The text of a region, with its radius if it has one. -/
def text (r : Region) : String :=
  match r.radius with
  | none => r.wkt
  | some meters => r.wkt ++ " buffered " ++ Number.text meters ++ "m"

def toJson (r : Region) : Json :=
  match r.radius with
  | none => .object [("wkt", .string r.wkt)]
  | some meters => .object [("wkt", .string r.wkt), ("buffer_meters", .ofFloat meters)]

def ofJson? (v : Json) : Option Region := do
  let [wkt, buffer] ← v.fields? ["wkt", "buffer_meters"] | none
  return {
    wkt := ← Json.required? Json.string? wkt
    radius := ← Json.optional? (Json.nullable? Json.float?) none buffer }

end Region

/-! ## Drafts -/

/-- A shape whose parts are being collected. -/
structure Draft where
  kind : Shape
  vertices : Nat
  coordinates : List Coordinate := []
  distances : List Float := []
  angle : Option Float := none
  deriving DecidableEq

namespace Draft

/-- A shape without parts; an ellipse will have the given number of vertices. -/
def start (kind : Shape) (vertices : Nat) : Draft := { kind, vertices }

def addCoordinate (d : Draft) (c : Coordinate) : Draft :=
  { d with coordinates := d.coordinates ++ [c] }

/-- Adds a radius or the length of an axis in meters. -/
def addDistance (d : Draft) (meters : Float) : Draft :=
  { d with distances := d.distances ++ [meters] }

/-- Sets the bearing of an ellipse in degrees clockwise from north. -/
def withAngle (d : Draft) (degrees : Float) : Draft := { d with angle := some degrees }

/-- The error for a wrong number of parts. -/
def arity {α : Type} (d : Draft) (expected : String) (actual : Nat) : Except GeometryError α :=
  .error (.wrongArity d.kind.keyword expected actual)

/-- The one coordinate of a shape without distances. -/
def finishPoint (d : Draft) : Except GeometryError Region :=
  match d.coordinates, d.distances with
  | [c], [] => .ok { wkt := pointText c }
  | [_], ds => d.arity "1 coordinate" ds.length
  | cs, _ => d.arity "1 coordinate" cs.length

def finishLine (d : Draft) : Except GeometryError Region :=
  if d.coordinates.length < 2 then d.arity "at least 2 coordinates" d.coordinates.length
  else .ok { wkt := lineText d.coordinates }

def finishPolygon (d : Draft) : Except GeometryError Region :=
  if d.coordinates.length < 3 then d.arity "at least 3 coordinates" d.coordinates.length
  else .ok { wkt := polygonText d.coordinates }

/-- Two opposite corners, without distances. -/
def finishRectangle (d : Draft) : Except GeometryError Region :=
  match d.coordinates, d.distances with
  | [a, b], [] => .ok { wkt := polygonText (Box.ring ⟨a, b⟩) }
  | [_, _], ds => d.arity "2 coordinates" ds.length
  | cs, _ => d.arity "2 coordinates" cs.length

/-- A centre and a radius. -/
def finishCircle (d : Draft) : Except GeometryError Region :=
  match d.coordinates, d.distances with
  | [c], [radius] => .ok { wkt := pointText c, radius := some radius }
  | [_], ds => d.arity "1 coordinate and a radius" ds.length
  | cs, _ => d.arity "1 coordinate and a radius" cs.length

/-- A centre, two axes and a bearing, which is north when it is not given. -/
def finishEllipse (d : Draft) : Except GeometryError Region :=
  match d.coordinates, d.distances with
  | [c], [major, minor] =>
    (ellipseOutline c major minor (d.angle.getD 0.0) d.vertices).map fun ring =>
      { wkt := polygonText ring }
  | [_], ds => d.arity "1 coordinate and 2 axis lengths" ds.length
  | cs, _ => d.arity "1 coordinate and 2 axis lengths" cs.length

/-- The finished shape, when it has the parts that its kind needs. -/
def finish (d : Draft) : Except GeometryError Region :=
  match d.kind with
  | .point => d.finishPoint
  | .line => d.finishLine
  | .polygon => d.finishPolygon
  | .rectangle => d.finishRectangle
  | .circle => d.finishCircle
  | .ellipse => d.finishEllipse

end Draft

end Catalogue.Geometry
