import Catalogue.Geometry.Distance
import Catalogue.Number.Shortest
import Catalogue.Json.Shape

/-!
# Operators of a predicate

Comparisons, the test for presence, and spatial relations; two of the relations carry a distance in
meters. Tokens are read in any letter case, and blanks at their ends are dropped.
-/

namespace Catalogue.Filter

open Catalogue.Text

/-- How an attribute is tested. -/
inductive Operator where
  | eq
  | neq
  | lt
  | lte
  | gt
  | gte
  | like
  | exists
  | intersects
  | inside
  | outside
  /-- Within a distance in meters of the shape. -/
  | within (meters : Float)
  /-- Farther than a distance in meters from the shape. -/
  | beyond (meters : Float)
  deriving DecidableEq

/-- A spatial relation that waits for its distance. -/
inductive Relation where
  | within
  | beyond
  deriving DecidableEq, Repr

namespace Relation

/-- Reads a relation that needs a distance. -/
def ofToken? (token : String) : Option Relation :=
  match upper (trim token) with
  | "WITHIN" => some within
  | "BEYOND" => some beyond
  | _ => none

/-- The relation at a distance in meters. -/
def operator (r : Relation) (meters : Float) : Operator :=
  match r with
  | within => .within meters
  | beyond => .beyond meters

end Relation

namespace Operator

/-- Reads a comparison or the test for presence. -/
def comparison? (token : String) : Option Operator :=
  match upper (trim token) with
  | "=" => some eq
  | "!=" => some neq
  | "<>" => some neq
  | "<" => some lt
  | "<=" => some lte
  | ">" => some gt
  | ">=" => some gte
  | "LIKE" => some like
  | "EXISTS" => some .exists
  | _ => none

/-- Reads a spatial relation without a distance. -/
def spatial? (token : String) : Option Operator :=
  match upper (trim token) with
  | "INTERSECT" => some intersects
  | "INTERSECTS" => some intersects
  | "INSIDE" => some inside
  | "OUTSIDE" => some outside
  | _ => none

/-- The name of an operator in text. -/
def symbol : Operator → String
  | eq => "="
  | neq => "!="
  | lt => "<"
  | lte => "<="
  | gt => ">"
  | gte => ">="
  | like => "like"
  | .exists => "exists"
  | intersects => "intersects"
  | inside => "inside"
  | outside => "outside"
  | within _ => "within"
  | beyond _ => "beyond"

/-- The name of an operator in serialised form. -/
def name : Operator → String
  | eq => "eq"
  | neq => "neq"
  | lt => "lt"
  | lte => "lte"
  | gt => "gt"
  | gte => "gte"
  | like => "like"
  | .exists => "exists"
  | intersects => "intersects"
  | inside => "inside"
  | outside => "outside"
  | within _ => "within"
  | beyond _ => "beyond"

/-- The operators that carry no distance. -/
def plain : List Operator :=
  [eq, neq, lt, lte, gt, gte, like, .exists, intersects, inside, outside]

/-- The distance an operator carries. -/
def meters? : Operator → Option Float
  | within m => some m
  | beyond m => some m
  | _ => none

/-- Whether the operator relates the attribute to a shape. -/
def isSpatial : Operator → Bool
  | intersects => true
  | inside => true
  | outside => true
  | within _ => true
  | beyond _ => true
  | _ => false

/-- The symbol of an operator, with its distance if it has one. -/
def text (o : Operator) : String :=
  match o.meters? with
  | none => o.symbol
  | some m => o.symbol ++ "(" ++ Number.text m ++ "m)"

def toJson (o : Operator) : Json :=
  match o.meters? with
  | none => .object [("op", .string o.name)]
  | some m => .object [("op", .string o.name), ("meters", .ofFloat m)]

/-- The operator with a name and, if it needs one, a distance. -/
def ofName? (name : String) (content : Option Json) : Option Operator :=
  match name with
  | "within" => (Json.content? Json.float? content).map within
  | "beyond" => (Json.content? Json.float? content).map beyond
  | _ => do
    Json.noContent? content
    plain.find? (fun o => o.name == name)

def ofJson? (v : Json) : Option Operator := do
  let (name, content) ← v.tagged? "op" "meters"
  ofName? name content

end Operator

end Catalogue.Filter
