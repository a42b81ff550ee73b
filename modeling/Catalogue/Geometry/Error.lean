/-!
# Geometry errors

Why a text or a shape is no geometry. Each cause has a stable code and a message.
-/

namespace Catalogue.Geometry

/-- Why something is no geometry. -/
inductive GeometryError where
  /-- The text does not have the form of a geometry. -/
  | malformedWkt (detail : String)
  /-- The keyword names a geometry that is not read. -/
  | unsupportedType (keyword : String)
  /-- An ordinate is not a finite number. -/
  | invalidCoordinate (detail : String)
  /-- A shape has another number of parts than it needs. -/
  | wrongArity (shape expected : String) (actual : Nat)
  /-- The token names no unit of distance. -/
  | unknownUnit (token : String)
  /-- The coordinate is in degrees, minutes and seconds. -/
  | sexagesimal (text : String)
  deriving DecidableEq, Repr

namespace GeometryError

def code : GeometryError → String
  | malformedWkt _ => "BQS_GEOMETRY_MALFORMED_WKT"
  | unsupportedType _ => "BQS_GEOMETRY_UNSUPPORTED_TYPE"
  | invalidCoordinate _ => "BQS_GEOMETRY_INVALID_COORDINATE"
  | wrongArity _ _ _ => "BQS_GEOMETRY_WRONG_ARITY"
  | unknownUnit _ => "BQS_GEOMETRY_UNKNOWN_UNIT"
  | sexagesimal _ => "BQS_GEOMETRY_DMS_UNSUPPORTED"

def message : GeometryError → String
  | malformedWkt detail => "Malformed WKT: " ++ detail
  | unsupportedType keyword => "Unsupported geometry type: " ++ keyword
  | invalidCoordinate detail => "Invalid coordinate: " ++ detail
  | wrongArity shape expected actual =>
    shape ++ " requires " ++ expected ++ ", got " ++ toString actual
  | unknownUnit token => "Unknown distance unit: " ++ token
  | sexagesimal text => "DMS coordinates are not supported: " ++ text

end GeometryError

end Catalogue.Geometry
