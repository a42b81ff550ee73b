import Catalogue.Schema.Table
import Catalogue.Schema.Traversal

/-!
# Schemas

A schema has entities with their attributes, relationships between them, and views: the part of the
schema that relationships lead to from a root. Looking something up never fails; what is unknown
has no attributes and no relationships.
-/

namespace Catalogue

namespace Schema

/-! ## Views -/

/-- The part of a schema that is reachable from a root. -/
structure View where
  name : String
  root : Entity
  /-- Breadth first from the root, each entity once. -/
  entities : List Entity
  relationships : List Relationship
  deriving DecidableEq, Repr

namespace View

/-- The view of a name and a root. -/
def ofRoot (name : String) (root : Entity) (rels : List Relationship) : View :=
  let s := (Search.start root).run rels
  { name, root, entities := s.found, relationships := s.crossed }

def contains (v : View) (e : Entity) : Bool := v.entities.contains e

def toJson (v : View) : Json :=
  .object [("name", .string v.name), ("root", v.root.toJson),
    ("entities", .array (v.entities.map Entity.toJson)),
    ("relationships", .array (v.relationships.map Relationship.toJson))]

end View

end Schema

open Catalogue.Schema

/-- Entities with their attributes, relationships as declared, and views by their names. -/
structure Schema where
  attributes : Table Entity (List Attribute)
  relationships : List Relationship
  views : Table String View
  deriving DecidableEq, Repr

namespace Schema

/-! ## Entities and attributes -/

/-- The declared entities, in the order in which entities are listed. -/
def entities (s : Schema) : List Entity := s.attributes.keys

/-- The attributes of an entity. -/
def attributesOf (s : Schema) (e : Entity) : List Attribute := (s.attributes.get? e).getD []

/-- The attributes of the entity with a name. -/
def attributesOfName (s : Schema) (name : String) : List Attribute :=
  match Entity.ofName? name with
  | some e => s.attributesOf e
  | none => []

/-- The attribute of an entity with a name. -/
def find? (s : Schema) (e : Entity) (name : String) : Option Attribute :=
  (s.attributesOf e).find? (fun a => a.name == name)

/-! ## Views -/

def view? (s : Schema) (name : String) : Option View := s.views.get? name

/-- The names of the views, sorted. -/
def viewNames (s : Schema) : List String := s.views.keys

/-- The attributes of every entity of a view. -/
def viewAttributes (s : Schema) (name : String) : List Attribute :=
  match s.view? name with
  | some v => v.entities.flatMap s.attributesOf
  | none => []

/-! ## Relationships -/

/-- The relationships with a parent. -/
def relationshipsBelow (s : Schema) (parent : Entity) : List Relationship :=
  s.relationships.filter (fun r => r.parent == parent)

/-- The cardinalities of both sides of a relationship. -/
def cardinality? (s : Schema) (parent child : Entity) : Option (Cardinality × Cardinality) :=
  (s.relationships.find? (fun r => r.parent == parent && r.child == child)).map
    fun r => (r.parents, r.children)

end Schema

end Catalogue
