import Catalogue.Exchange.Encode
import Catalogue.Exchange.Visit

/-!
# From graphs to records

A record is read off the walk through a valid graph. What one leaf contributes depends on its own
name and value, the nearest entity above it, and whether an association is above it.

* `Reading` — what one leaf contributes: a value, a marking, an association, a report or an error.
* `decode` — the record of a graph, or the first error, with the reports before it.
-/

namespace Catalogue.Exchange

open Catalogue.Geometry
open Catalogue.Graph (Node NodeId Topology)
open Catalogue.Journal
open Catalogue.Record (Product)
open Catalogue.Schema (Entity Kind)

/-! ## Leaves -/

/-- What a leaf contributes. -/
inductive Reading where
  /-- A value of the record. -/
  | write (key : String) (v : Record.Value)
  | mark (m : Marking) (s : String)
  /-- The identifier of an associated record. -/
  | associate (identifier : String)
  /-- Nothing, and this is reported. -/
  | skipped (e : Entry)
  | refused (e : ExchangeError)

/-- The report of a leaf that has no place in a record. -/
def unplaced (entity name : String) : Entry :=
  .detail .attributeUnhandled [("entity", entity), ("attribute", name)]

/-- The report of a leaf whose value has another kind than is read there. -/
def wrongKind (e : Entity) (name : String) (expected : Kind) (v : Graph.Value) : Entry :=
  kindReport e name expected.name v.kind.name

/-- The report of a timestamp that names no instant. -/
def invalidDate (e : Entity) (m : Mapping) (s : Graph.Timestamp) : Entry :=
  .report .dateInvalid [("entity", e.name), ("attribute", m.name), ("value", s.describe)]

/-- A text that belongs to the table of a field, if it has one. -/
def readText (e : Entity) (m : Mapping) (s : String) : Reading :=
  match m.table with
  | none => .write m.key (.text s)
  | some t =>
    if t.contains s then .write m.key (.text s) else .skipped (unknownMember e m t s)

/-- A timestamp that names an instant. -/
def readDate (e : Entity) (m : Mapping) (s : Graph.Timestamp) : Reading :=
  match s.instant? with
  | some t => .write m.key (.date t)
  | none => .skipped (invalidDate e m s)

/-- What the value of a field contributes. -/
def decodeField (e : Entity) (m : Mapping) (v : Graph.Value) : Reading :=
  let mismatch := Reading.skipped (wrongKind e m.name m.kind v)
  let read {α : Type} (a : Option α) (f : α → Reading) : Reading := (a.map f).getD mismatch
  match m.kind with
  | .text => read v.text? (readText e m)
  | .short => read v.integer? (.write m.key <| .integer ·)
  | .ushort => read v.integer? (.write m.key <| .integer ·)
  | .int => read v.integer? (.write m.key <| .integer ·)
  | .uint => read v.integer? (.write m.key <| .integer ·)
  | .long => read v.integer? (.write m.key <| .integer ·)
  | .double => read v.float? (.write m.key <| .float ·)
  | .bool => read v.bool? (.write m.key <| .bool ·)
  | .date => read v.date? (readDate e m)
  | .rectangle => mismatch

/-- The location that a box gives: a point when its corners coincide, else the closed box. -/
def located (b : Box) : Reading := .write locationKey (.geometry b.toGeometry.text)

/-- What the box of a coverage contributes; it may also be given as the text of a geometry. -/
def readBox (v : Graph.Value) : Reading :=
  match v with
  | .rectangle b => located b
  | .text wkt =>
    match Geometry.parse wkt with
    | .ok g => located g.envelope
    | .error e => .refused (.geometry e)
  | other => .skipped (wrongKind .coverage boxName .rectangle other)

/-- What a leaf below an association contributes. -/
def readAssociated (e : Entity) (name : String) (v : Graph.Value) : Reading :=
  if name = identifierName then
    match v.text? with
    | some identifier => .associate identifier
    | none => .skipped (wrongKind e name .text v)
  else .skipped (unplaced e.name name)

/-- What a security leaf contributes. -/
def readMarking (e : Entity) (name : String) (v : Graph.Value) : Reading :=
  match v.text? with
  | none => .skipped (wrongKind e name .text v)
  | some s =>
    match Marking.ofName? name with
    | some m => .mark m s
    | none => .skipped (unplaced e.name name)

/-- What a leaf with a value contributes in its scope. -/
def contribution (scope : Scope) (name : String) (v : Graph.Value) : Reading :=
  let entityName := scope.entity.getD ""
  match Entity.ofName? entityName with
  | none => .skipped (unplaced entityName name)
  | some e =>
    if scope.inAssociation then readAssociated e name v
    else if e.holdsMarkings then readMarking e name v
    else if e = .coverage ∧ name = boxName then readBox v
    else
      match mapping? e name with
      | some m => decodeField e m v
      | none => .skipped (unplaced entityName name)

/-! ## Records -/

/-- What has been read of a record. -/
structure Draft where
  record : Record := {}
  /-- The identifiers of associated records. -/
  associated : Array String := #[]
  markings : Descriptor := {}
  deriving DecidableEq

namespace Draft

/-- Enters an entity; outside associations, the entity of a type sets the type. -/
def enter (d : Draft) (name : String) (inside : Scope) : Draft :=
  if inside.inAssociation then d
  else
    match (Entity.ofName? name).bind Product.ofEntity? with
    | none => d
    | some p =>
      { d with
        record := { d.record with product := some p, contentType := some p.contentTypeName } }

/-- Takes in what a leaf contributes. -/
def take (mode : Narrowing) (d : Draft) : Reading → Reported Draft
  | .write key v => ⟨.ok { d with record := d.record.set key v }, []⟩
  | .mark m s => ⟨.ok { d with markings := d.markings.fold mode m s }, []⟩
  | .associate identifier => ⟨.ok { d with associated := d.associated.push identifier }, []⟩
  | .skipped e => ⟨.ok d, [e]⟩
  | .refused e => ⟨.error e, []⟩

/-- Takes one step of a walk. -/
def visit (mode : Narrowing) (d : Draft) : Visit → Reported Draft
  | .entity name inside => ⟨.ok (d.enter name inside), []⟩
  | .leaf n scope =>
    match n.value with
    | none => ⟨.ok d, []⟩
    | some v => d.take mode (contribution scope n.name v)

/-- Takes the steps of a walk up to the first error. -/
def follow (mode : Narrowing) (d : Draft) : List Visit → Reported Draft
  | [] => ⟨.ok d, []⟩
  | v :: rest =>
    let step := d.visit mode v
    match step.result with
    | .error e => ⟨.error e, step.entries⟩
    | .ok d =>
      let r := follow mode d rest
      ⟨r.result, step.entries ++ r.entries⟩

/-- The record: with its associations, the markings, and a content type in any case. -/
def finish (fallback : String) (d : Draft) : Record :=
  let r := d.markings.apply d.record
  { r with
    associations := d.associated.toList
    contentType := r.contentType.or (some fallback) }

end Draft

/-- The report of a decoded graph. -/
def decodedReport (r : Record) : Entry :=
  .report .recordDecoded [("attributes", toString r.attributes.length),
    ("associations", toString r.associations.length), ("content_type", r.contentType.getD "")]

/-- The record of a graph; a graph without an entity of a type has the fallback content type. -/
def decode (fallback : String) (mode : Narrowing) (g : Graph) : Reported Record :=
  match g.topology with
  | .error e => ⟨.error (.graph e), []⟩
  | .ok t =>
    let followed := Draft.follow mode {} (visits t)
    match followed.result with
    | .error e => ⟨.error e, followed.entries⟩
    | .ok d =>
      let r := d.finish fallback
      ⟨.ok r, followed.entries ++ [decodedReport r]⟩

end Catalogue.Exchange
