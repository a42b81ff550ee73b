import Catalogue.Geometry.Coordinate

/-!
# Geometries in text

A geometry is a point, a line string or the outer ring of a polygon. Its text is a keyword in any
letter case and a bracketed list of positions, longitude first.

* `Geometry.text` — the written form.
* `Geometry.parse` — reads the text; blanks may stand around every token, a third ordinate is
  ignored, and of a polygon only the first ring is read.
* `Geometry.envelope` — the least box that holds every position.
-/

namespace Catalogue

open Catalogue.Geometry (Coordinate)

/-- A geometry with at least one position. -/
inductive Geometry where
  | point (position : Coordinate)
  | lineString (first : Coordinate) (rest : List Coordinate)
  /-- The outer ring; holes are not kept. -/
  | polygon (first : Coordinate) (rest : List Coordinate)
  deriving DecidableEq

namespace Geometry

open Catalogue.Text

/-! ## Writing -/

/-- Positions with commas between them. -/
def positionsText (cs : List Coordinate) : String :=
  ", ".intercalate (cs.map Coordinate.position)

def pointText (c : Coordinate) : String := "POINT(" ++ c.position ++ ")"

def lineText (cs : List Coordinate) : String := "LINESTRING(" ++ positionsText cs ++ ")"

def polygonText (cs : List Coordinate) : String := "POLYGON((" ++ positionsText cs ++ "))"

/-- Every position, in order. -/
def positions : Geometry → List Coordinate
  | point c => [c]
  | lineString first rest => first :: rest
  | polygon first rest => first :: rest

/-- The written form of a geometry. -/
def text (g : Geometry) : String :=
  match g with
  | point c => pointText c
  | lineString first rest => lineText (first :: rest)
  | polygon first rest => polygonText (first :: rest)

/-! ## Reading -/

/--
Whether the character may stand in a keyword. Letter case is that of Unicode, in which two letters
outside ASCII are variants of ASCII letters: the long s and the Kelvin sign.
-/
def isKeywordLetter (c : Char) : Bool :=
  ('a' ≤ c && c ≤ 'z') || ('A' ≤ c && c ≤ 'Z') || c == '\u017f' || c == '\u212a'

/-- Takes a text that ends in a closing bracket, without that bracket. -/
def closed? (cs : List Char) : Option (List Char) :=
  match (trimEnd cs).getLast? with
  | some ')' => some (trimEnd cs).dropLast
  | _ => none

/-- Splits `keyword ( body )` into the keyword and the body. -/
def framed? (cs : List Char) : Option (List Char × List Char) :=
  let cs := trimStart cs
  let keyword := cs.takeWhile isKeywordLetter
  if keyword.isEmpty then none
  else
    match trimStart (cs.dropWhile isKeywordLetter) with
    | '(' :: rest => (closed? rest).map (keyword, ·)
    | _ => none

/-- The text between the first bracket and the next one, which must close it. -/
def firstRing? (cs : List Char) : Option (List Char) :=
  match trimStart cs with
  | '(' :: rest =>
    match rest.dropWhile (fun c => c != '(' && c != ')') with
    | ')' :: _ => some (rest.takeWhile (fun c => c != '(' && c != ')'))
    | _ => none
  | _ => none

/-- Reads one position: longitude, latitude and perhaps a third ordinate that is ignored. -/
def position (s : String) : Except GeometryError Coordinate :=
  match words s with
  | [lon, lat] => Coordinate.ofTexts lat lon
  | [lon, lat, _] => Coordinate.ofTexts lat lon
  | _ => .error (.malformedWkt ("position '" ++ trim s ++ "'"))

/-- Reads positions with commas between them. -/
def positionList (body : List Char) : Except GeometryError (List Coordinate) :=
  ((fields (· == ',') body).map String.ofList).mapM position

/-- Reads the body of a point. -/
def ofPointBody (body : List Char) : Except GeometryError Geometry := do
  match ← positionList body with
  | [c] => return point c
  | cs => throw (.wrongArity "POINT" "1 position" cs.length)

/-- Reads the body of a line string. -/
def ofLineBody (body : List Char) : Except GeometryError Geometry := do
  match ← positionList body with
  | first :: second :: rest => return lineString first (second :: rest)
  | cs => throw (.wrongArity "LINESTRING" "at least 2 positions" cs.length)

/-- Reads the positions of a ring. -/
def ofRingBody (body : List Char) : Except GeometryError Geometry := do
  match ← positionList body with
  | first :: second :: third :: fourth :: rest =>
    return polygon first (second :: third :: fourth :: rest)
  | cs => throw (.wrongArity "POLYGON" "at least 4 positions" cs.length)

/-- Reads a geometry from its text. -/
def parse (s : String) : Except GeometryError Geometry :=
  match framed? s.toList with
  | none => .error (.malformedWkt (trim s))
  | some (keyword, body) =>
    match upper (String.ofList keyword) with
    | "POINT" => ofPointBody body
    | "LINESTRING" => ofLineBody body
    | "POLYGON" =>
      match firstRing? body with
      | some ring => ofRingBody ring
      | none => .error (.malformedWkt (trim s))
    | other => .error (.unsupportedType other)

/-! ## Envelopes -/

/-- The lesser of two numbers; the second of equal ones, and a number rather than none. -/
def lesser (a b : Float) : Float := if a < b || b.isNaN then a else b

/-- The greater of two numbers; the second of equal ones, and a number rather than none. -/
def greater (a b : Float) : Float := if b < a || b.isNaN then a else b

/-- Widens a box so that it holds a position. -/
def Box.include (b : Box) (c : Coordinate) : Box where
  upperLeft := ⟨greater b.upperLeft.lat c.lat, lesser b.upperLeft.lon c.lon⟩
  lowerRight := ⟨lesser b.lowerRight.lat c.lat, greater b.lowerRight.lon c.lon⟩

/-- The least box that holds every position. -/
def envelope : Geometry → Box
  | point c => ⟨c, c⟩
  | lineString first rest => rest.foldl Box.include ⟨first, first⟩
  | polygon first rest => rest.foldl Box.include ⟨first, first⟩

/-- A point when the corners coincide, and otherwise the closed rectangle. -/
def Box.toGeometry (b : Box) : Geometry :=
  if b.isPoint then .point b.upperLeft
  else .polygon b.upperLeft b.ring.tail

end Geometry

end Catalogue
