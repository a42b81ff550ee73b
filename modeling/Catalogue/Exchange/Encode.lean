import Catalogue.Exchange.Error
import Catalogue.Exchange.Mapping
import Catalogue.Exchange.Security
import Catalogue.Geometry.Wkt
import Catalogue.Graph.Basic

/-!
# From records to graphs

Every entity for which the record has values becomes a node under the root, with one leaf for each
value. First the fields of a record are looked at, in the order of the entities; then the graph is
built from what was found.

* `Finding` — what becomes of one value: a leaf, a report that it is left out, or an error.
* `encode` — the graph of a record, or the first error, with the reports before it.
-/

namespace Catalogue.Exchange

open Catalogue.Geometry
open Catalogue.Graph (NodeId Timestamp)
open Catalogue.Journal
open Catalogue.Record (Product)
open Catalogue.Schema (Entity Kind rootName)

/-! ## Values -/

/-- What becomes of one value of a record. -/
inductive Finding where
  | leaf (v : Graph.Value)
  /-- The value is left out, and this is reported. -/
  | skipped (e : Entry)
  | refused (e : ExchangeError)

/-- The report of a value whose kind is not that of its attribute. -/
def kindReport (e : Entity) (name expected actual : String) : Entry :=
  .report .attributeKindMismatch [("entity", e.name), ("attribute", name),
    ("expected", expected), ("actual", actual)]

/-- The report of a text that is not in the table of its attribute. -/
def unknownMember (e : Entity) (m : Mapping) (t : Record.Enumeration) (s : String) : Entry :=
  .report .enumerationUnknown [("entity", e.name), ("attribute", m.name), ("table", t.name),
    ("value", s)]

/-- An integer as a leaf of a narrower kind, if it fits. -/
def fitted {α : Type} (m : Mapping) (n : Int64) (leaf : α → Graph.Value) (fit : Option α) :
    Finding :=
  match fit with
  | some a => .leaf (leaf a)
  | none => .refused (.outOfRange m.key n m.kind)

/-- What becomes of the value of a field. -/
def encodeField (e : Entity) (m : Mapping) (v : Record.Value) : Finding :=
  match m.kind, v with
  | .text, .text s =>
    match m.table with
    | some t => if t.contains s then .leaf (.text s) else .skipped (unknownMember e m t s)
    | none => .leaf (.text s)
  | .short, .integer n => fitted m n .short (Number.int16? n.toInt)
  | .ushort, .integer n => fitted m n .ushort (Number.uint16? n.toInt)
  | .int, .integer n => fitted m n .int (Number.int32? n.toInt)
  | .uint, .integer n => fitted m n .uint (Number.uint32? n.toInt)
  | .long, .integer n => .leaf (.long n)
  | .double, .float x => .leaf (.double x)
  | .bool, .bool b => .leaf (.bool b)
  | .date, .date t => .leaf (.date (Timestamp.ofInstant t))
  | expected, actual => .skipped (kindReport e m.name expected.name actual.kind)

/-- What becomes of a geometry's text: the box around it. -/
def boxOf (wkt : String) : Finding :=
  match Geometry.parse wkt with
  | .ok g => .leaf (.rectangle g.envelope)
  | .error e => .refused (.geometry e)

/-- What becomes of the location of a record, if it has one. -/
def locationFinding? (r : Record) : Option Finding :=
  (r.get? locationKey).map fun v =>
    match v with
    | .geometry wkt => boxOf wkt
    | .text wkt => boxOf wkt
    | other => .skipped (kindReport .coverage boxName "geometry" other.kind)

/-! ## Sections -/

/-- What becomes of the fields of an entity, with their attribute names. -/
def fieldFindings (r : Record) (e : Entity) : List (String × Finding) :=
  (mappings e).filterMap fun m => (r.get? m.key).map fun v => (m.name, encodeField e m v)

/-- What becomes of the values that an entity holds; a coverage also holds the location. -/
def findings (r : Record) (e : Entity) : List (String × Finding) :=
  fieldFindings r e ++
    if e = .coverage then (locationFinding? r).toList.map (boxName, ·) else []

/-- The entities that are looked at for every record, in order. -/
def sections : List Entity :=
  [.card, .file, .stream, .approval, .relatedFile, .part, .common, .coverage, .exploitationInfo]

/-- The entities that are looked at for a record: at the end, the one of its type. -/
def sectionsOf (r : Record) : List Entity :=
  sections ++ (r.product.map Product.entity).toList

/-- The leaves of a section, or the first error. -/
def leaves : List (String × Finding) → Reported (List (String × Graph.Value))
  | [] => ⟨.ok [], []⟩
  | (name, .leaf v) :: rest =>
    let r := leaves rest
    ⟨r.result.map ((name, v) :: ·), r.entries⟩
  | (_, .skipped e) :: rest =>
    let r := leaves rest
    ⟨r.result, e :: r.entries⟩
  | (_, .refused e) :: _ => ⟨.error e, []⟩

/-- An entity with its leaves. -/
abbrev Section := Entity × List (String × Graph.Value)

/-- The sections of a record, or the first error. -/
def gather (r : Record) : List Entity → Reported (List Section)
  | [] => ⟨.ok [], []⟩
  | e :: rest =>
    let found := leaves (findings r e)
    match found.result with
    | .error err => ⟨.error err, found.entries⟩
    | .ok ls =>
      let others := gather r rest
      ⟨others.result.map ((e, ls) :: ·), found.entries ++ others.entries⟩

/-- The markings of a record, with their attribute names. -/
def markingLeaves (r : Record) : List (String × Graph.Value) :=
  Marking.all.filterMap fun m => (r.text? m.key).map fun s => (m.name, .text s)

/-! ## Building -/

/-- Adds leaves under a node. -/
def addLeaves (g : Graph) (parent : NodeId) (ls : List (String × Graph.Value)) : Graph :=
  ls.foldl (fun g l => (g.addLeaf parent l.1 l.2).1) g

/-- Adds an entity with its leaves, if it has any. -/
def addSection (root : NodeId) (g : Graph) (s : Section) : Graph :=
  if s.2.isEmpty then g
  else
    let (g, node) := g.addEntity root s.1.name
    addLeaves g node s.2

/-- Adds an associated record: a destination with a card that holds the identifier. -/
def addDestination (association : NodeId) (g : Graph) (identifier : String) : Graph :=
  let (g, destination) := g.addEntity association Entity.destination.name
  let (g, card) := g.addEntity destination Entity.card.name
  (g.addLeaf card identifierName (.text identifier)).1

/-- Adds the associated records, if there are any. -/
def addAssociations (root : NodeId) (g : Graph) (identifiers : List String) : Graph :=
  if identifiers.isEmpty then g
  else
    let (g, association) := g.addEntity root Entity.association.name
    identifiers.foldl (addDestination association) g

/-- The graph of sections and associated records. -/
def assemble (ss : List Section) (identifiers : List String) : Graph :=
  let (g, root) := Graph.ofRoot rootName
  addAssociations root (ss.foldl (addSection root) g) identifiers

/-- The report of an encoded record. -/
def encodedReport (g : Graph) (r : Record) : Entry :=
  .report .recordEncoded [("nodes", toString g.nodes.size),
    ("associations", toString r.associations.length)]

/-- The graph of a record. -/
def encode (r : Record) : Reported Graph :=
  let gathered := gather r (sectionsOf r)
  match gathered.result with
  | .error e => ⟨.error e, gathered.entries⟩
  | .ok ss =>
    let g := assemble (ss ++ [(.security, markingLeaves r)]) r.associations
    ⟨.ok g, gathered.entries ++ [encodedReport g r]⟩

end Catalogue.Exchange
