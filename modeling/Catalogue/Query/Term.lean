import Catalogue.Filter.Basic
import Catalogue.Query.Numeric
import Catalogue.Query.Tree

/-!
# Terms of a query

What has been read of the term under way, and what becomes of it when the term ends: a filter, or
the cause for which the term is dropped. The first failure inside a term decides.

* `OpenTerm.comparison` — the end of a comparison.
* `OpenTerm.spatial` — the end of a spatial relation.
-/

namespace Catalogue.Query

open Catalogue.Filter (Operator Relation Value)
open Catalogue.Geometry
open Catalogue.Time

/-! ## Causes -/

/-- Why a term is dropped. -/
inductive DropCause where
  | unknownComparison (token : String)
  | unknownSpatial (token : String)
  | unknownRelation (token : String)
  | unreadableAngle (text : String)
  | coordinateArity (numbers : Nat)
  | strayCoordinate
  | unreadableDistance (text : String)
  | incompleteDistance
  | geometry (e : GeometryError)
  | missingSubject
  | missingComparison
  | missingLiteral
  | unreadableNumber (text : String)
  | unreadableDate (text : String)
  | missingShape
  | missingDistance
  | missingSpatial
  deriving DecidableEq, Repr

namespace DropCause

/-- A word and the text it is about between single quotes. -/
def about (words text : String) : String := words ++ " '" ++ text ++ "'"

def message : DropCause → String
  | unknownComparison token => about "unknown comparison operator" token
  | unknownSpatial token => about "unknown geo operator" token
  | unknownRelation token => about "unknown relative geo operator" token
  | unreadableAngle text => about "unreadable angle" text
  | coordinateArity n => "coordinate needs 2 numbers, got " ++ toString n
  | strayCoordinate => "coordinate outside a shape"
  | unreadableDistance text => about "unreadable distance" text
  | incompleteDistance => "distance needs a number and a unit"
  | geometry e => e.message
  | missingSubject => "missing attribute"
  | missingComparison => "missing comparison operator"
  | missingLiteral => "missing literal"
  | unreadableNumber text => about "unparseable number" text
  | unreadableDate text => about "unparseable date" text
  | missingShape => "missing shape"
  | missingDistance => "missing distance"
  | missingSpatial => "missing geo operator"

end DropCause

/-! ## What has been read -/

/-- An operator, or a relation that still needs its distance. -/
inductive Slot where
  | ready (o : Operator)
  | relative (r : Relation)
  deriving DecidableEq

/-- A literal as it was written; the quotes of a text or a date are gone. -/
inductive Literal where
  | text (s : String)
  | number (s : String)
  | date (s : String)
  deriving DecidableEq, Repr

/-- What has been read of a term. -/
structure OpenTerm where
  subject : Option String := none
  literal : Option Literal := none
  /-- Numbers that wait for their coordinate or distance. -/
  numbers : List String := []
  unit : Option String := none
  /-- The distance of a relation, in meters. -/
  distance : Option Float := none
  /-- The shape being collected. -/
  draft : Option Draft := none
  region : Option Region := none
  failure : Option DropCause := none
  deriving DecidableEq

namespace OpenTerm

/-- Records a failure unless there is one. -/
def fail (t : OpenTerm) (cause : DropCause) : OpenTerm :=
  { t with failure := t.failure.or (some cause) }

/-- Ends a coordinate: two numbers become the next corner of the shape. -/
def endCoordinate (t : OpenTerm) : OpenTerm :=
  let cleared := { t with numbers := [] }
  match t.numbers with
  | [lat, lon] =>
    match Coordinate.ofTexts lat lon, t.draft with
    | .ok c, some d => { cleared with draft := some (d.addCoordinate c) }
    | .ok _, none => cleared.fail .strayCoordinate
    | .error e, _ => cleared.fail (.geometry e)
  | numbers => cleared.fail (.coordinateArity numbers.length)

/-- A number and a unit as meters. -/
def meters (value unit : String) : Except DropCause Float :=
  match LengthUnit.ofToken unit with
  | .error e => .error (.geometry e)
  | .ok u =>
    match (Number.float? value).map u.inMeters with
    | some m => if m.isFinite then .ok m else .error (.unreadableDistance value)
    | none => .error (.unreadableDistance value)

/-- The last number and the unit as meters. -/
def lastDistance (t : OpenTerm) : Except DropCause Float :=
  match t.numbers.getLast?, t.unit with
  | some value, some unit => meters value unit
  | _, _ => .error .incompleteDistance

/-- Ends a distance, which belongs to the shape around it or else to the relation. -/
def endDistance (t : OpenTerm) (inShape : Bool) : OpenTerm :=
  let cleared := { t with numbers := t.numbers.dropLast, unit := none }
  match t.lastDistance with
  | .error cause => cleared.fail cause
  | .ok m =>
    if inShape then { cleared with draft := t.draft.map (·.addDistance m) }
    else { cleared with distance := some m }

/-- Ends a shape. -/
def endShape (t : OpenTerm) : OpenTerm :=
  match t.draft with
  | none => t
  | some d =>
    let cleared := { t with draft := none }
    match d.finish with
    | .ok r => { cleared with region := some r }
    | .error e => cleared.fail (.geometry e)

end OpenTerm

/-! ## Ends of terms -/

/-- A comparison with an instant; an inclusive one is a strict one or equality. -/
def instantFilter (subject : String) (o : Operator) (t : Instant) : Filter :=
  match o with
  | .gte => .or [.test subject .gt (.date t), .test subject .eq (.date t)]
  | .lte => .or [.test subject .lt (.date t), .test subject .eq (.date t)]
  | o => .test subject o (.date t)

/-- A comparison with a literal. -/
def literalFilter (order : List NumberKind) (subject : String) (o : Operator) :
    Literal → Except DropCause Filter
  | .text s => .ok (.test subject o (.text s))
  | .number s =>
    match numberValue? order s with
    | some v => .ok (.test subject o v)
    | none => .error (.unreadableNumber s)
  | .date s =>
    match literal? s with
    | some t => .ok (instantFilter subject o t)
    | none => .error (.unreadableDate s)

namespace OpenTerm

/-- The attribute of a term that has not failed. -/
def subjectOf (t : OpenTerm) : Except DropCause String :=
  match t.failure, t.subject with
  | some cause, _ => .error cause
  | none, some subject => .ok subject
  | none, none => .error .missingSubject

/-- What a comparison becomes with the operator in its slot. -/
def comparison (order : List NumberKind) (slot : Option Slot) (t : OpenTerm) :
    Except DropCause Filter := do
  let subject ← t.subjectOf
  match slot with
  | some (.ready .exists) => return .test subject .exists .null
  | some (.ready o) =>
    match t.literal with
    | some l => literalFilter order subject o l
    | none => throw .missingLiteral
  | _ => throw .missingComparison

/-- What a spatial relation becomes with the operator in its slot. -/
def spatial (slot : Option Slot) (t : OpenTerm) : Except DropCause Filter := do
  let subject ← t.subjectOf
  match t.region with
  | none => throw .missingShape
  | some r =>
    match slot, t.distance with
    | some (.ready o), _ => return .test subject o (.geometry r)
    | some (.relative relation), some m => return .test subject (relation.operator m) (.geometry r)
    | some (.relative _), none => throw .missingDistance
    | none, _ => throw .missingSpatial

end OpenTerm

end Catalogue.Query
