import Catalogue.Graph.Basic
import Catalogue.Graph.Index

/-!
# Valid graphs

A graph is valid when its nodes have different numbers, its leaves have values and no children,
there is one root, edges run between nodes but never to the root, and no path of edges leads back
to its start. The checks are made in this order, and the first violation is the error:

* node by node, a repeated number and a leaf without a value;
* the number of roots;
* edge by edge, an unknown end, an edge to the root, an edge from a leaf;
* a cycle. Nodes that no remaining edge leads to are taken away one by one; what cannot be taken
  lies on a cycle or behind one.

`Topology` is a valid graph with its nodes and the children of every node indexed.
-/

namespace Catalogue.Graph

/-! ## Checks of nodes and edges -/

/-- The index of the nodes; no number is repeated and no leaf lacks a value. -/
def indexNodes (t : Index Node) : List Node → Except GraphError (Index Node)
  | [] => .ok t
  | n :: rest =>
    if (t.get? n.id).isSome then .error (.duplicateNode n.id)
    else if n.kind = .leaf ∧ n.value = none then .error (.missingValue n.id n.name)
    else indexNodes (t.update n.id fun _ => n) rest

/-- The only root. -/
def onlyRoot (nodes : List Node) : Except GraphError NodeId :=
  match nodes.filter (fun n => n.kind = .root) with
  | [n] => .ok n.id
  | roots => .error (.rootCount roots.length)

/-- What is wrong with an edge, if anything is. -/
def edgeError? (index : Index Node) (root : NodeId) (e : Edge) : Option GraphError :=
  match index.get? e.parent with
  | none => some (.unknownNode e.parent e.child e.parent)
  | some parent =>
    if (index.get? e.child).isNone then some (.unknownNode e.parent e.child e.child)
    else if e.child = root then some (.rootHasParent root)
    else if parent.kind = .leaf then some (.attributeHasChildren e.parent)
    else none

/-- All edges are in order, or the first one that is not says why. -/
def checkEdges (index : Index Node) (root : NodeId) (edges : List Edge) : Except GraphError Unit :=
  match edges.findSome? (edgeError? index root) with
  | some e => .error e
  | none => .ok ()

/-! ## Adjacency -/

/-- The children of every parent and the number of edges to every node. -/
structure Adjacency where
  children : Index (List NodeId)
  degrees : Index Int

/-- Before any edge: every node has no edge to it. -/
def noEdges (nodes : List Node) : Adjacency where
  children := .empty
  degrees := nodes.foldl (fun t n => t.update n.id fun _ => 0) .empty

/-- Adds an edge that comes before the others. -/
def Adjacency.add (e : Edge) (a : Adjacency) : Adjacency where
  children := a.children.update e.parent fun cs => e.child :: cs.getD []
  degrees := a.degrees.update e.child fun d => d.getD 0 + 1

/-- The adjacency of edges between nodes. -/
def connect (nodes : List Node) (edges : List Edge) : Adjacency :=
  edges.foldr Adjacency.add (noEdges nodes)

/-! ## Cycles -/

/-- Nodes that can be taken away, how many were, and the edges that still lead to each node. -/
structure Peeling where
  ready : List NodeId
  degrees : Index Int
  taken : Nat

namespace Peeling

/-- Removes an edge to a child, which is ready when that was the last one. -/
def release (p : Peeling) (child : NodeId) : Peeling :=
  match p.degrees.get? child with
  | none => p
  | some d =>
    let degrees := p.degrees.update child fun _ => d - 1
    if d - 1 = 0 then { p with degrees, ready := child :: p.ready } else { p with degrees }

/-- Takes away one node that is ready. -/
def take (children : Index (List NodeId)) (p : Peeling) : Peeling :=
  match p.ready with
  | [] => p
  | id :: rest =>
    ((children.get? id).getD []).foldl release { p with ready := rest, taken := p.taken + 1 }

/-- Takes away nodes, at most as many as there are. -/
def run (children : Index (List NodeId)) : Nat → Peeling → Peeling
  | 0, p => p
  | n + 1, p => run children n (p.take children)

end Peeling

/-- Whether an edge leads to the node. -/
def hasParent (degrees : Index Int) (n : Node) : Bool := 0 < (degrees.get? n.id).getD 0

/-- The nodes left when no more can be taken away. -/
def peel (nodes : List Node) (a : Adjacency) : Peeling :=
  let free := (nodes.filter (fun n => !hasParent a.degrees n)).map Node.id
  Peeling.run a.children nodes.length { ready := free.reverse, degrees := a.degrees, taken := 0 }

/-! ## Valid graphs -/

/-- The root and the nodes of a valid graph, with its indices. -/
structure Topology where
  root : NodeId
  nodes : List Node
  index : Index Node
  adjacency : Index (List NodeId)

namespace Topology

/-- The node with a number. -/
def node? (t : Topology) (id : NodeId) : Option Node := t.index.get? id

/-- The children of a node in the order of their edges. -/
def children (t : Topology) (id : NodeId) : List NodeId := (t.adjacency.get? id).getD []

end Topology

end Catalogue.Graph

namespace Catalogue

open Catalogue.Graph

/-- Checks a graph and indexes it. -/
def Graph.topology (g : Graph) : Except GraphError Topology := do
  let nodes := g.nodes.toList
  let index ← indexNodes .empty nodes
  let root ← onlyRoot nodes
  checkEdges index root g.edges.toList
  let a := connect nodes g.edges.toList
  let p := peel nodes a
  if p.taken = nodes.length then
    return { root, nodes, index, adjacency := a.children }
  else
    let stuck := nodes.find? (hasParent p.degrees)
    throw (.cycle ((stuck.map Node.id).getD root))

end Catalogue
