import Catalogue.Geometry.Coordinate

/-!
# Ellipses as polygons

An ellipse on the ground is approximated by a closed ring of positions around its centre. Near the
centre a degree of latitude and a degree of longitude have fixed lengths, given by series in the
latitude.
-/

namespace Catalogue.Geometry

/-- The ratio of a circle's circumference to its diameter. -/
def pi : Float := 3.14159265358979323846

/-- Degrees as radians. -/
def radians (degrees : Float) : Float := degrees * (pi / 180.0)

/-- Meters in one degree of latitude at a latitude. -/
def metersPerLatitude (lat : Float) : Float :=
  let phi := radians lat
  111132.92 - 559.82 * (2.0 * phi).cos + 1.175 * (4.0 * phi).cos - 0.0023 * (6.0 * phi).cos

/-- Meters in one degree of longitude at a latitude. -/
def metersPerLongitude (lat : Float) : Float :=
  let phi := radians lat
  111412.84 * phi.cos - 93.5 * (3.0 * phi).cos + 0.118 * (5.0 * phi).cos

/-- The vertex count used where none is configured. -/
def defaultVertices : Nat := 30

/-- The greatest vertex count. -/
def maxVertices : Nat := 10000

/-- The position of vertex `i` of `vertices`. -/
def ellipseVertex (center : Coordinate) (major minor angle : Float) (vertices i : Nat) :
    Coordinate :=
  let turn := radians angle
  let step := 2.0 * pi * i.toFloat / vertices.toFloat
  let along := major / 2.0 * step.cos
  let across := minor / 2.0 * step.sin
  let north := along * turn.cos - across * turn.sin
  let east := along * turn.sin + across * turn.cos
  ⟨center.lat + north / metersPerLatitude center.lat,
    center.lon + east / metersPerLongitude center.lat⟩

/--
The closed ring of an ellipse. `major` and `minor` are whole axes in meters, and `angle` is the
bearing of the major axis in degrees clockwise from north.
-/
def ellipseOutline (center : Coordinate) (major minor angle : Float) (vertices : Nat) :
    Except GeometryError (List Coordinate) :=
  if vertices < 3 then .error (.wrongArity "ELLIPSE" "at least 3 vertices" vertices)
  else if maxVertices < vertices then
    .error (.wrongArity "ELLIPSE" "at most 10000 vertices" vertices)
  else if (metersPerLongitude center.lat).abs < 1e-6 then
    .error (.invalidCoordinate ("ellipse centre at latitude " ++ Number.text center.lat))
  else
    let vertex := ellipseVertex center major minor angle vertices
    .ok ((List.range vertices).map vertex ++ [vertex 0])

end Catalogue.Geometry
