import Catalogue.Query.Tree
import Catalogue.Text.Quoted

/-!
# Building syntax trees

One function for each rule of the grammar, for callers that have no parser. A node with children
covers the texts of its children with a space between neighbours.
-/

namespace Catalogue.Query.Build

open Catalogue.Text

/-- A node without children. -/
def leaf (rule : Rule) (text : String) : Node := ⟨rule, text, []⟩

/-- A node with children. -/
def branch (rule : Rule) (children : List Node) : Node :=
  ⟨rule, " ".intercalate (children.map Node.text), children⟩

/-- A keyword or a bracket. -/
def mark (text : String) : Node := leaf .punctuation text

/-- Items with a keyword between neighbours. -/
def joined (rule : Rule) (keyword : String) (items : List Node) : Node :=
  branch rule (items.intersperse (mark keyword))

def query (terms : List Node) : Node := joined .query "OR" terms

def term (factors : List Node) : Node := joined .term "AND" factors

def factor (inner : Node) : Node := branch .factor [inner]

/-- A query between brackets. -/
def group (query : Node) : Node := branch .factor [mark "(", query, mark ")"]

def not (factor : Node) : Node := branch .not [mark "NOT", factor]

/-- A comparison of an attribute with a literal. -/
def primary (subject op : String) (literal : Node) : Node :=
  branch .primary [leaf .subject subject, leaf .comparisonOp op, literal]

/-- A test for the presence of an attribute. -/
def present (subject : String) : Node :=
  branch .primary [leaf .subject subject, leaf .comparisonOp "EXISTS"]

/-- A spatial relation between an attribute and a shape. -/
def spatial (subject op : String) (shape : Node) : Node :=
  branch .geoPrimary [leaf .subject subject, leaf .geoOp op, shape]

/-- A spatial relation with a distance. -/
def relative (subject op : String) (distance shape : Node) : Node :=
  branch .geoPrimary
    [leaf .subject subject, leaf .relativeGeoOp op, distance, mark "OF", shape]

def number (text : String) : Node := leaf .number text

/-- A quoted string; the text is given without quotes. -/
def quoted (text : String) : Node := leaf .quotedString (quote text)

/-- A quoted date; the text is given without quotes. -/
def date (text : String) : Node := leaf .date ("'" ++ text ++ "'")

def distance (value unit : String) : Node :=
  branch .distance [number value, leaf .unit unit]

def coordinate (lat lon : String) : Node := branch .coordinate [number lat, number lon]

/-- A coordinate in degrees, minutes and seconds. -/
def sexagesimal (text : String) : Node := leaf .dmsCoordinate text

/-- A keyword and the bracketed parts of a shape. -/
def shape (rule : Rule) (keyword : String) (parts : List Node) : Node :=
  branch rule (mark keyword :: mark "(" :: (parts ++ [mark ")"]))

def point (coordinate : Node) : Node := shape .point "POINT" [coordinate]

def polygon (coordinates : List Node) : Node := shape .polygon "POLYGON" coordinates

def line (coordinates : List Node) : Node := shape .line "LINE" coordinates

def rectangle (upperLeft lowerRight : Node) : Node :=
  shape .rectangle "RECTANGLE" [upperLeft, lowerRight]

def circle (center radius : Node) : Node := shape .circle "CIRCLE" [center, radius]

def ellipse (center major minor : Node) (angle : String) : Node :=
  shape .ellipse "ELLIPSE" [center, major, minor, leaf .angle angle]

end Catalogue.Query.Build
