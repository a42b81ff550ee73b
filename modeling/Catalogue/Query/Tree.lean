import Catalogue.Json.Shape

/-!
# Syntax trees of queries

A tree as a parser hands it over. Every node has the grammar rule it was made by and the text it
covers:

    query       := term (OR term)*
    term        := factor (AND factor)*
    factor      := primary | geo_primary | not | '(' query ')'
    not         := NOT factor
    primary     := attribute comparison_op (number | date | quoted_string)?
    geo_primary := attribute geo_op shape
                 | attribute relative_geo_op distance OF shape
    distance    := number unit
    shape       := point | polygon | rectangle | line | circle | ellipse
    circle      := coordinate distance
    ellipse     := coordinate distance distance angle
    coordinate  := number number | dms_coordinate

Keywords and brackets are leaves of the rule `punctuation`. A tree need not follow the grammar.

* `Node.steps` — the walk through a tree: each node is entered, its children are walked in order,
  and it is left.
-/

namespace Catalogue.Query

/-! ## Rules -/

/-- A rule of the grammar, or a class of tokens. -/
inductive Rule where
  | query
  | term
  | factor
  | not
  | primary
  | geoPrimary
  | subject
  | comparisonOp
  | geoOp
  | relativeGeoOp
  | number
  | date
  | quotedString
  | distance
  | unit
  | angle
  | point
  | polygon
  | rectangle
  | line
  | circle
  | ellipse
  | coordinate
  | dmsCoordinate
  | punctuation
  deriving DecidableEq, Repr

namespace Rule

/-- Every rule. -/
def all : List Rule :=
  [query, term, factor, not, primary, geoPrimary, subject, comparisonOp, geoOp, relativeGeoOp,
    number, date, quotedString, distance, unit, angle, point, polygon, rectangle, line, circle,
    ellipse, coordinate, dmsCoordinate, punctuation]

/-- The name of a rule in serialised form. -/
def name : Rule → String
  | query => "query"
  | term => "term"
  | factor => "factor"
  | not => "not"
  | primary => "primary"
  | geoPrimary => "geo_primary"
  | subject => "attribute"
  | comparisonOp => "comparison_op"
  | geoOp => "geo_op"
  | relativeGeoOp => "relative_geo_op"
  | number => "number"
  | date => "date"
  | quotedString => "quoted_string"
  | distance => "distance"
  | unit => "unit"
  | angle => "angle"
  | point => "point"
  | polygon => "polygon"
  | rectangle => "rectangle"
  | line => "line"
  | circle => "circle"
  | ellipse => "ellipse"
  | coordinate => "coordinate"
  | dmsCoordinate => "dms_coordinate"
  | punctuation => "punctuation"

/-- The name of a rule in messages. -/
def label : Rule → String
  | query => "Query"
  | term => "Term"
  | factor => "Factor"
  | not => "Not"
  | primary => "Primary"
  | geoPrimary => "GeoPrimary"
  | subject => "Attribute"
  | comparisonOp => "ComparisonOp"
  | geoOp => "GeoOp"
  | relativeGeoOp => "RelativeGeoOp"
  | number => "Number"
  | date => "Date"
  | quotedString => "QuotedString"
  | distance => "Distance"
  | unit => "Unit"
  | angle => "Angle"
  | point => "Point"
  | polygon => "Polygon"
  | rectangle => "Rectangle"
  | line => "Line"
  | circle => "Circle"
  | ellipse => "Ellipse"
  | coordinate => "Coordinate"
  | dmsCoordinate => "DmsCoordinate"
  | punctuation => "Punctuation"

def ofName? (s : String) : Option Rule := all.find? (fun r => r.name == s)

def ofJson? (v : Json) : Option Rule := v.name?.bind ofName?

/-- Whether the rule is that of a shape. -/
def isShape : Rule → Bool
  | point => true
  | polygon => true
  | rectangle => true
  | line => true
  | circle => true
  | ellipse => true
  | _ => false

end Rule

/-! ## Nodes -/

/-- A node with the text it covers and its children in order. -/
structure Node where
  rule : Rule
  text : String
  children : List Node

namespace Node

def isLeaf (n : Node) : Bool := n.children.isEmpty

mutual

def toJson : Node → Json
  | ⟨rule, text, children⟩ =>
    .object [("rule", .string rule.name), ("text", .string text),
      ("children", .array (toJsonAll children))]

def toJsonAll : List Node → List Json
  | [] => []
  | n :: rest => n.toJson :: toJsonAll rest

end

mutual

/-- Reads a tree; the text and the children of a node may be absent. -/
def ofJson? : Json → Option Node
  | .object members => do
    let rule ← Json.required? Rule.ofJson? (← Json.member? members "rule")
    let text ← Json.optional? Json.string? "" (← Json.member? members "text")
    return ⟨rule, text, ← childrenIn? members⟩
  | .array [rule] => do return ⟨← Rule.ofJson? rule, "", []⟩
  | .array [rule, text] => do return ⟨← Rule.ofJson? rule, ← text.string?, []⟩
  | .array [rule, text, children] => do
    return ⟨← Rule.ofJson? rule, ← text.string?, ← ofItems? children⟩
  | _ => none

/-- The children given in the members of an object, at most once. -/
def childrenIn? : List (String × Json) → Option (List Node)
  | [] => some []
  | (k, v) :: rest =>
    if k == "children" then
      if rest.any (fun m => m.1 == "children") then none else ofItems? v
    else childrenIn? rest

def ofItems? : Json → Option (List Node)
  | .array items => ofJsonAll? items
  | _ => none

def ofJsonAll? : List Json → Option (List Node)
  | [] => some []
  | v :: rest => do
    let n ← ofJson? v
    return n :: (← ofJsonAll? rest)

end

end Node

/-! ## Walks -/

/-- A step of a walk through a tree. -/
inductive Step where
  | enter (n : Node)
  | leave (n : Node)

namespace Node

mutual

/-- The walk through a tree. -/
def steps : Node → List Step
  | ⟨rule, text, children⟩ =>
    .enter ⟨rule, text, children⟩ :: (stepsAll children ++ [.leave ⟨rule, text, children⟩])

def stepsAll : List Node → List Step
  | [] => []
  | n :: rest => n.steps ++ stepsAll rest

end

end Node

end Catalogue.Query
