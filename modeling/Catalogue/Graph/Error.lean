/-!
# Graph errors

Why a list of nodes and edges is no record graph.
-/

namespace Catalogue.Graph

/-- The number of a node. -/
abbrev NodeId := UInt32

/-- The written form of a node's number. -/
def idText (id : NodeId) : String := "#" ++ toString id.toNat

/-- Why nodes and edges are no record graph. -/
inductive GraphError where
  /-- There is not exactly one root. -/
  | rootCount (count : Nat)
  /-- Two nodes share a number. -/
  | duplicateNode (id : NodeId)
  /-- An end of an edge is no node. -/
  | unknownNode (parent child missing : NodeId)
  /-- An edge leads to the root. -/
  | rootHasParent (root : NodeId)
  /-- The edges lead around in a circle. -/
  | cycle (id : NodeId)
  /-- A leaf has no value. -/
  | missingValue (id : NodeId) (name : String)
  /-- An edge starts at a leaf. -/
  | attributeHasChildren (id : NodeId)
  deriving DecidableEq, Repr

namespace GraphError

def code : GraphError → String
  | rootCount _ => "BQS_DAG_ROOT_COUNT"
  | duplicateNode _ => "BQS_DAG_DUPLICATE_NODE"
  | unknownNode _ _ _ => "BQS_DAG_UNKNOWN_NODE"
  | rootHasParent _ => "BQS_DAG_ROOT_HAS_PARENT"
  | cycle _ => "BQS_DAG_CYCLE"
  | missingValue _ _ => "BQS_DAG_MISSING_VALUE"
  | attributeHasChildren _ => "BQS_DAG_ATTRIBUTE_HAS_CHILDREN"

def message : GraphError → String
  | rootCount count => "Expected exactly one root node, found " ++ toString count
  | duplicateNode id => "Node id " ++ idText id ++ " used more than once"
  | unknownNode parent child missing =>
    "Edge " ++ idText parent ++ " -> " ++ idText child ++ " refers to unknown node "
      ++ idText missing
  | rootHasParent root => "Root node " ++ idText root ++ " has a parent"
  | cycle id => "Cycle detected through node " ++ idText id
  | missingValue id name =>
    "Attribute node " ++ idText id ++ " '" ++ name ++ "' carries no value"
  | attributeHasChildren id => "Attribute node " ++ idText id ++ " cannot have children"

end GraphError

end Catalogue.Graph
