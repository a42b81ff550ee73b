import Catalogue.Graph.Error
import Catalogue.Graph.Value

/-!
# Record graphs

A record graph is a row of numbered nodes and a row of edges from parents to children. Nodes are
added with numbers of their own: the one after the greatest in use, and where that is the greatest
number there is, the least number not in use. The next number is kept with the count of nodes it
was found at, and is found anew when that count has changed in between.

* `Graph.add` — adds a node and the edge to it.
-/

namespace Catalogue

namespace Graph

/-! ## Nodes and edges -/

/-- What a node is. -/
inductive NodeRole where
  | root
  | entity
  | leaf
  /-- A container without data of its own. -/
  | record
  deriving DecidableEq, Repr

namespace NodeRole

def all : List NodeRole := [root, entity, leaf, record]

def name : NodeRole → String
  | root => "root"
  | entity => "entity"
  | leaf => "attribute"
  | record => "record"

def ofName? (s : String) : Option NodeRole := all.find? (fun k => k.name == s)

def ofJson? (v : Json) : Option NodeRole := v.name?.bind ofName?

end NodeRole

/-- A node; only a leaf needs a value. -/
structure Node where
  id : NodeId
  kind : NodeRole
  name : String
  value : Option Value := none
  deriving DecidableEq

namespace Node

/-- Equality in which the two zeros are equal. -/
def same (a b : Node) : Bool :=
  a.id == b.id && a.kind = b.kind && a.name == b.name &&
    match a.value, b.value with
    | some v, some w => v.same w
    | none, none => true
    | _, _ => false

def toJson (n : Node) : Json :=
  .object ([("id", .integer n.id.toNat), ("kind", .string n.kind.name), ("name", .string n.name)]
    ++ match n.value with
      | none => []
      | some v => [("value", v.toJson)])

def ofJson? (v : Json) : Option Node := do
  let [id, kind, name, value] ← v.fields? ["id", "kind", "name", "value"] | none
  return {
    id := ← Json.required? Json.uint32? id
    kind := ← Json.required? NodeRole.ofJson? kind
    name := ← Json.required? Json.string? name
    value := ← Json.optional? (Json.nullable? Value.ofJson?) none value }

end Node

/-- An edge from a parent to a child. -/
structure Edge where
  parent : NodeId
  child : NodeId
  deriving DecidableEq, Repr

namespace Edge

def toJson (e : Edge) : Json :=
  .object [("parent", .integer e.parent.toNat), ("child", .integer e.child.toNat)]

def ofJson? (v : Json) : Option Edge := do
  let [parent, child] ← v.fields? ["parent", "child"] | none
  return {
    parent := ← Json.required? Json.uint32? parent
    child := ← Json.required? Json.uint32? child }

end Edge

end Graph

open Catalogue.Graph

/-- Nodes, edges, and the next number with the count of nodes it was found at. -/
structure Graph where
  nodes : Array Node := #[]
  edges : Array Edge := #[]
  cursor : Option (NodeId × Nat) := none
  deriving DecidableEq

namespace Graph

/-! ## Looking up -/

/-- The first node with a number. -/
def node? (g : Graph) (id : NodeId) : Option Node := g.nodes.find? (fun n => n.id == id)

/-- The number of the first root. -/
def root? (g : Graph) : Option NodeId := (g.nodes.find? (fun n => n.kind = .root)).map Node.id

/-- The children of a node in the order of their edges. -/
def children (g : Graph) (id : NodeId) : List NodeId :=
  (g.edges.toList.filter (fun e => e.parent == id)).map Edge.child

/-! ## Adding nodes -/

/-- The greatest number. -/
def lastId : Nat := 0xFFFFFFFF

/-- The least number below the greatest that is not in a list. -/
def gap? (used : List Nat) : Option Nat :=
  (List.range (min (used.length + 1) lastId)).find? (fun n => n ∉ used)

/-- A number that no node has, found from the nodes. -/
def freeId (nodes : List Node) : NodeId :=
  match (nodes.map (fun n => n.id.toNat)).max? with
  | none => 0
  | some greatest =>
    if greatest < lastId then UInt32.ofNat (greatest + 1)
    else UInt32.ofNat ((gap? (nodes.map (fun n => n.id.toNat))).getD lastId)

/-- The number for the next node. -/
def nextId (g : Graph) : NodeId :=
  match g.cursor with
  | some (next, count) => if count = g.nodes.size then next else freeId g.nodes.toList
  | none => freeId g.nodes.toList

/-- Adds a node without an edge. -/
def push (g : Graph) (kind : NodeRole) (name : String) (value : Option Value) : Graph × NodeId :=
  let id := g.nextId
  let cursor := if id.toNat < lastId then some (id + 1, g.nodes.size + 1) else none
  ({ g with nodes := g.nodes.push ⟨id, kind, name, value⟩, cursor }, id)

/-- Adds a node under a parent. -/
def add (g : Graph) (parent : NodeId) (kind : NodeRole) (name : String) (value : Option Value) :
    Graph × NodeId :=
  let (g, child) := g.push kind name value
  ({ g with edges := g.edges.push ⟨parent, child⟩ }, child)

def addEntity (g : Graph) (parent : NodeId) (name : String) : Graph × NodeId :=
  g.add parent .entity name none

def addRecord (g : Graph) (parent : NodeId) (name : String) : Graph × NodeId :=
  g.add parent .record name none

def addLeaf (g : Graph) (parent : NodeId) (name : String) (value : Value) : Graph × NodeId :=
  g.add parent .leaf name (some value)

/-- A graph that is only its root, with the number of that root. -/
def ofRoot (name : String) : Graph × NodeId := ({} : Graph).push .root name none

/-! ## Equality and serialised form -/

/-- Whether two lists have the same length and related items. -/
def sameList {α : Type} (r : α → α → Bool) : List α → List α → Bool
  | [], [] => true
  | a :: as, b :: bs => r a b && sameList r as bs
  | _, _ => false

/-- Equality of nodes and edges, in which the two zeros are equal. -/
def same (g h : Graph) : Bool :=
  sameList Node.same g.nodes.toList h.nodes.toList && g.edges = h.edges

def toJson (g : Graph) : Json :=
  .object [("nodes", .array (g.nodes.toList.map Node.toJson)),
    ("edges", .array (g.edges.toList.map Edge.toJson))]

def ofJson? (v : Json) : Option Graph := do
  let [nodes, edges] ← v.fields? ["nodes", "edges"] | none
  return {
    nodes := (← Json.optional? (Json.items? Node.ofJson?) [] nodes).toArray
    edges := (← Json.optional? (Json.items? Edge.ofJson?) [] edges).toArray }

end Graph

end Catalogue
