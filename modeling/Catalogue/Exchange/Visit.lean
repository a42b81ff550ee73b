import Catalogue.Graph.Topology
import Catalogue.Schema.Entity

/-!
# Walking a graph

A walk goes through a valid graph from its root, depth first and children in the order of their
edges. A node that several paths lead to is visited once for each of them. With every visit goes
the scope it has on its path: the nearest entity above, and whether an association is above.

## Termination

The walk keeps a stack of nodes to visit, each with the number of edges its paths may still have.
That number starts at the count of nodes, which no path of a graph without cycles exceeds. A node
with `b` edges left weighs `(width + 1) ^ b`; its children, at most `width` of them, weigh less
together.
-/

namespace Catalogue.Exchange

open Catalogue.Graph
open Catalogue.Schema (Entity)

/-- Where a node stands on its path. -/
structure Scope where
  /-- The name of the nearest entity above. -/
  entity : Option String := none
  /-- Whether an association is above. -/
  inAssociation : Bool := false
  deriving DecidableEq, Repr

/-- The scope inside an entity. -/
def Scope.enter (s : Scope) (name : String) : Scope where
  entity := some name
  inAssociation := s.inAssociation || Entity.ofName? name == some .association

/-- A step of a walk. -/
inductive Visit where
  /-- An entity is entered, with the scope inside it. -/
  | entity (name : String) (inside : Scope)
  | leaf (node : Node) (scope : Scope)

/-- A node to visit, and how many edges may follow it. -/
structure Pending where
  id : NodeId
  scope : Scope
  budget : Nat
  deriving DecidableEq, Repr

/-- The children of a node to visit, in a scope. -/
def below (t : Topology) (p : Pending) (inside : Scope) : List Pending :=
  match p.budget with
  | 0 => []
  | b + 1 => (t.children p.id).map (⟨·, inside, b⟩)

/-! ## The measure of a walk -/

/-- How many children all nodes have together. -/
def width (t : Topology) : Nat := t.adjacency.total List.length

theorem length_children_le (t : Topology) (id : NodeId) : (t.children id).length ≤ width t := by
  unfold Topology.children
  cases h : t.adjacency.get? id with
  | none => simp
  | some cs => exact Index.measure_le_total List.length t.adjacency h

/-- The weight of the nodes on a stack. -/
def weight (w : Nat) : List Pending → Nat
  | [] => 0
  | p :: rest => Nat.pow (w + 1) p.budget + weight w rest

theorem weight_append (w : Nat) (s t : List Pending) :
    weight w (s ++ t) = weight w s + weight w t := by
  induction s with
  | nil => rw [List.nil_append, weight, Nat.zero_add]
  | cons p rest ih => rw [List.cons_append, weight, weight, ih, Nat.add_assoc]

theorem weight_cons (w : Nat) (p : Pending) (s : List Pending) :
    weight w (p :: s) = Nat.pow (w + 1) p.budget + weight w s := rfl

theorem weight_map (w b : Nat) (inside : Scope) (ids : List NodeId) :
    weight w (ids.map (⟨·, inside, b⟩)) = ids.length * Nat.pow (w + 1) b := by
  induction ids with
  | nil => simp [weight]
  | cons id rest ih =>
    rw [List.map_cons, weight_cons, ih, List.length_cons, Nat.succ_mul, Nat.add_comm]

theorem weight_below_lt (t : Topology) (p : Pending) (inside : Scope) :
    weight (width t) (below t p inside) < Nat.pow (width t + 1) p.budget := by
  unfold below
  split
  · next h => simp [weight, h]
  · next b h =>
    rw [weight_map, h]
    show _ < Nat.pow (width t + 1) b * (width t + 1)
    rw [Nat.mul_comm (Nat.pow (width t + 1) b)]
    exact Nat.mul_lt_mul_of_pos_right (Nat.lt_succ_of_le (length_children_le t p.id))
      (Nat.pow_pos (Nat.succ_pos _))

/-! ## The walk -/

/-- The visits of the nodes on a stack, top first. -/
def walk (t : Topology) (stack : List Pending) : List Visit :=
  match stack with
  | [] => []
  | p :: rest =>
    match t.node? p.id with
    | none => walk t rest
    | some n =>
      match n.kind with
      | .leaf => .leaf n p.scope :: walk t rest
      | .entity =>
        let inside := p.scope.enter n.name
        .entity n.name inside :: walk t (below t p inside ++ rest)
      | .root => walk t (below t p p.scope ++ rest)
      | .record => walk t (below t p p.scope ++ rest)
termination_by weight (width t) stack
decreasing_by
  all_goals
    rw [weight_cons]
    try rw [weight_append]
  · exact Nat.lt_add_of_pos_left (Nat.pow_pos (Nat.succ_pos _))
  · exact Nat.lt_add_of_pos_left (Nat.pow_pos (Nat.succ_pos _))
  · exact Nat.add_lt_add_right (weight_below_lt t p _) _
  · exact Nat.add_lt_add_right (weight_below_lt t p _) _
  · exact Nat.add_lt_add_right (weight_below_lt t p _) _

/-- The visits of a valid graph, from its root. -/
def visits (t : Topology) : List Visit := walk t [⟨t.root, {}, t.nodes.length⟩]

end Catalogue.Exchange
