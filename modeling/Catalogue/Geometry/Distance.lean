import Catalogue.Geometry.Error
import Catalogue.Text.Blank

/-!
# Units of distance

The units a distance may be given in, their tokens and their length in meters.
-/

namespace Catalogue.Geometry

open Catalogue.Text

/-- A unit of distance. -/
inductive LengthUnit where
  | feet
  | meters
  | kilometers
  | nauticalMiles
  | statuteMiles
  deriving DecidableEq, Repr

namespace LengthUnit

/-- Reads a token in any letter case; blanks at the ends are dropped. -/
def ofToken? (token : String) : Option LengthUnit :=
  match upper (trim token) with
  | "FEET" => some feet
  | "FOOT" => some feet
  | "METERS" => some meters
  | "METER" => some meters
  | "KILOMETER" => some kilometers
  | "KILOMETERS" => some kilometers
  | "NAUTICAL_MI" => some nauticalMiles
  | "NAUTICAL_MILES" => some nauticalMiles
  | "STATUTE_MI" => some statuteMiles
  | "STATUTE_MILES" => some statuteMiles
  | _ => none

/-- Reads a token, or names it in the error. -/
def ofToken (token : String) : Except GeometryError LengthUnit :=
  match ofToken? token with
  | some u => .ok u
  | none => .error (.unknownUnit token)

/-- The token a unit is written with. -/
def token : LengthUnit → String
  | feet => "FEET"
  | meters => "METERS"
  | kilometers => "KILOMETER"
  | nauticalMiles => "NAUTICAL_MI"
  | statuteMiles => "STATUTE_MI"

/-- The name of a unit in serialised form. -/
def name : LengthUnit → String
  | feet => "feet"
  | meters => "meters"
  | kilometers => "kilometers"
  | nauticalMiles => "nautical_miles"
  | statuteMiles => "statute_miles"

/-- The length of one unit in meters. -/
def length : LengthUnit → Float
  | feet => 0.3048
  | meters => 1.0
  | kilometers => 1000.0
  | nauticalMiles => 1852.0
  | statuteMiles => 1609.344

/-- A number of units in meters. -/
def inMeters (u : LengthUnit) (value : Float) : Float := value * u.length

end LengthUnit

end Catalogue.Geometry
