import Catalogue.Journal.Entry
import Catalogue.Query.Term
import Catalogue.Text.Quoted

/-!
# Compiling queries

A machine follows the walk through a syntax tree. It keeps the rules of the nodes around it, the
operators that wait for the end of their term, the groups that are open, and what has been read of
the term. A group collects the filters of the terms and groups inside it; it is opened where a
query, a term or a negation is entered and closed where it is left. A term that cannot be read is
dropped and reported, and its neighbours are compiled all the same.

* `Machine.run` — the machine after a walk.
* `compile` — the filter of a tree whose root is a query, or no filter when every term is dropped.
-/

namespace Catalogue.Query

open Catalogue.Filter (Operator Relation)
open Catalogue.Geometry (Draft Shape GeometryError)
open Catalogue.Journal
open Catalogue.Text

/-! ## Errors and options -/

/-- Why a tree is not compiled at all. -/
inductive QueryError where
  /-- The root is no query. -/
  | unexpectedRoot (rule : Rule)
  /-- The text is no tree. -/
  | malformedTree
  deriving DecidableEq, Repr

namespace QueryError

def code : QueryError → String
  | unexpectedRoot _ => "BQS_QUERY_UNEXPECTED_ROOT"
  | malformedTree => "BQS_QUERY_MALFORMED_TREE"

def message : QueryError → String
  | unexpectedRoot rule => "Expected a query node at the root, found " ++ rule.label
  | malformedTree => "Malformed syntax tree"

end QueryError

/-- What may be configured: how numbers are read and how finely an ellipse is drawn. -/
structure Options where
  order : List NumberKind := defaultOrder
  vertices : Nat := Geometry.defaultVertices
  deriving DecidableEq, Repr

/-! ## Groups -/

/-- What an open group does with its filters. -/
inductive Connective where
  | or
  | and
  | not
  deriving DecidableEq, Repr

/-- An open group: the mark it was opened with and the filters collected so far. -/
structure Group where
  mark : UInt64
  connective : Connective
  filters : List Filter

/-- The filter of a closed group; a single filter is not wrapped, except by a negation. -/
def Group.combine (g : Group) : Option Filter :=
  match g.connective, g.filters with
  | _, [] => none
  | .not, [f] => some (.not f)
  | .not, fs => some (.not (.and fs))
  | _, [f] => some f
  | .and, fs => some (.and fs)
  | .or, fs => some (.or fs)

/-- The connective of the group that a node opens. -/
def connective? : Rule → Option Connective
  | .query => some .or
  | .term => some .and
  | .not => some .not
  | _ => none

/-- The kind of shape that a rule stands for. -/
def shapeOf? : Rule → Option Shape
  | .point => some .point
  | .polygon => some .polygon
  | .rectangle => some .rectangle
  | .line => some .line
  | .circle => some .circle
  | .ellipse => some .ellipse
  | _ => none

/-! ## The machine -/

/-- The state of a compilation. Stacks have their top in front. -/
structure Machine where
  ancestors : List Rule := []
  slots : List Slot := []
  groups : List Group := []
  term : OpenTerm := {}
  result : Option Filter := none
  entries : List Entry := []

namespace Machine

/-- Hands a filter to the innermost group, or makes it the result. -/
def deliver (m : Machine) (f : Filter) : Machine :=
  match m.groups with
  | g :: rest => { m with groups := { g with filters := g.filters ++ [f] } :: rest }
  | [] => { m with result := some f }

def report (m : Machine) (e : Entry) : Machine := { m with entries := m.entries ++ [e] }

/-- Records a failure of the term. -/
def fail (m : Machine) (cause : DropCause) : Machine :=
  { m with term := m.term.fail cause }

def pushSlot (m : Machine) (s : Slot) : Machine := { m with slots := s :: m.slots }

/-- The report of a group that is closed by another node than the one that opened it. -/
def mismatch (n : Node) : Entry := .report .groupMismatch [("text", n.text)]

/-- Closes the innermost group. -/
def endGroup (mark : String → UInt64) (m : Machine) (n : Node) : Machine :=
  match m.groups with
  | [] => m.report (mismatch n)
  | g :: rest =>
    let m := { m with groups := rest }
    let m := if g.mark == mark n.text then m else m.report (mismatch n)
    match g.combine with
    | some f => m.deliver f
    | none => m

/-! ## Leaves -/

/-- Sets the angle of the shape being collected. -/
def readAngle (m : Machine) (text : String) : Machine :=
  match Number.finite? text, m.term.draft with
  | some degrees, some d =>
    { m with term := { m.term with draft := some (d.withAngle degrees) } }
  | _, _ => m.fail (.unreadableAngle text)

/-- Reads a leaf that is neither a group, a term nor a shape. -/
def takeLeaf (m : Machine) (n : Node) (parent : Option Rule) : Machine :=
  let text := trim n.text
  match n.rule with
  | .subject => { m with term := { m.term with subject := some text } }
  | .comparisonOp =>
    match Operator.comparison? text with
    | some o => m.pushSlot (.ready o)
    | none => m.fail (.unknownComparison text)
  | .geoOp =>
    match Operator.spatial? text with
    | some o => m.pushSlot (.ready o)
    | none => m.fail (.unknownSpatial text)
  | .relativeGeoOp =>
    match Relation.ofToken? text with
    | some r => m.pushSlot (.relative r)
    | none => m.fail (.unknownRelation text)
  | .number =>
    if parent = some .primary then
      { m with term := { m.term with literal := some (.number text) } }
    else { m with term := { m.term with numbers := m.term.numbers ++ [text] } }
  | .date => { m with term := { m.term with literal := some (.date (unquote text)) } }
  | .quotedString =>
    { m with term := { m.term with literal := some (.text (unquote text)) } }
  | .unit => { m with term := { m.term with unit := some text } }
  | .angle => m.readAngle text
  | .dmsCoordinate =>
    (m.report (.report .sexagesimalUnsupported [("coordinate", text)])).fail
      (.geometry (.sexagesimal text))
  | _ => m

/-! ## Ends of terms -/

/-- The report of a dropped term. -/
def dropped (subject : Option String) (cause : DropCause) : Entry :=
  .report .termDropped [("attribute", subject.getD ""), ("reason", cause.message)]

/-- Ends a term: takes its operator, and emits its filter or reports why there is none. -/
def endTerm (m : Machine) (outcome : Option Slot → OpenTerm → Except DropCause Filter) :
    Machine :=
  let cleared := { m with slots := m.slots.tail, term := {} }
  match outcome m.slots.head? m.term with
  | .ok f => cleared.deliver f
  | .error cause => cleared.report (dropped m.term.subject cause)

/-! ## Steps -/

/-- Enters a node: opens a group, starts a term or a shape, or reads a leaf. -/
def enter (o : Options) (mark : String → UInt64) (m : Machine) (n : Node) : Machine :=
  let parent := m.ancestors.head?
  let m := { m with ancestors := n.rule :: m.ancestors }
  match connective? n.rule with
  | some c => { m with groups := ⟨mark n.text, c, []⟩ :: m.groups }
  | none =>
    if n.rule = .primary ∨ n.rule = .geoPrimary then { m with term := {} }
    else
      match shapeOf? n.rule with
      | some kind =>
        { m with term := { m.term with draft := some (.start kind o.vertices) } }
      | none => if n.isLeaf then m.takeLeaf n parent else m

/-- Leaves a node: closes what entering it opened. -/
def leave (o : Options) (mark : String → UInt64) (m : Machine) (n : Node) : Machine :=
  let m := { m with ancestors := m.ancestors.tail }
  match n.rule with
  | .query => m.endGroup mark n
  | .term => m.endGroup mark n
  | .not => m.endGroup mark n
  | .primary => m.endTerm (OpenTerm.comparison o.order)
  | .geoPrimary => m.endTerm OpenTerm.spatial
  | .coordinate => { m with term := m.term.endCoordinate }
  | .distance =>
    let inShape := m.ancestors.head?.any Rule.isShape
    { m with term := m.term.endDistance inShape }
  | rule => if rule.isShape then { m with term := m.term.endShape } else m

/-- One step of a walk. -/
def step (o : Options) (mark : String → UInt64) (m : Machine) : Step → Machine
  | .enter n => m.enter o mark n
  | .leave n => m.leave o mark n

/-- The machine after a walk. -/
def run (o : Options) (mark : String → UInt64) (m : Machine) (steps : List Step) : Machine :=
  steps.foldl (step o mark) m

end Machine

/-! ## Compilation -/

/-- The filter of a query, or none when every term was dropped, and what was reported. -/
structure Compiled where
  filter : Option Filter
  entries : List Entry

/-- How many predicates a filter has; no filter has none. -/
def predicateCount (f : Option Filter) : Nat :=
  match f with
  | none => 0
  | some f => f.predicates.length

/-- Compiles a tree; open groups are marked by a function of their text. -/
def compileMarked (mark : String → UInt64) (o : Options) (tree : Node) :
    Except QueryError Compiled :=
  if tree.rule = .query then
    let m := Machine.run o mark {} tree.steps
    let count := toString (predicateCount m.result)
    .ok {
      filter := m.result
      entries := m.entries ++ [.report .queryCompiled [("predicates", count)]] }
  else .error (.unexpectedRoot tree.rule)

/-- Compiles a tree. -/
def compile (o : Options) (tree : Node) : Except QueryError Compiled :=
  compileMarked hash o tree

end Catalogue.Query
