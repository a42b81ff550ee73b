import Catalogue.Schema.Entity

/-!
# Attributes and relationships

What an entity may carry, and how entities are related.
-/

namespace Catalogue.Schema

/-! ## Kinds of values -/

/-- The kind of an attribute's value. -/
inductive Kind where
  | text
  | short
  | ushort
  | int
  | uint
  | long
  | double
  | bool
  | date
  | rectangle
  deriving DecidableEq, Repr

namespace Kind

def all : List Kind := [text, short, ushort, int, uint, long, double, bool, date, rectangle]

def name : Kind → String
  | text => "text"
  | short => "short"
  | ushort => "ushort"
  | int => "int"
  | uint => "uint"
  | long => "long"
  | double => "double"
  | bool => "bool"
  | date => "date"
  | rectangle => "rectangle"

def ofName? (s : String) : Option Kind := all.find? (fun k => k.name == s)

def toJson (k : Kind) : Json := .string k.name

def ofJson? (v : Json) : Option Kind := v.name?.bind ofName?

/-- Whether the values of the kind are integers. -/
def isInteger : Kind → Bool
  | short => true
  | ushort => true
  | int => true
  | uint => true
  | long => true
  | _ => false

end Kind

/-! ## Attributes -/

/-- An attribute of an entity. -/
structure Attribute where
  entity : Entity
  name : String
  kind : Kind
  /-- Whether it must be present when the entity is. -/
  required : Bool
  deriving DecidableEq, Repr

def Attribute.toJson (a : Attribute) : Json :=
  .object [("entity", a.entity.toJson), ("name", .string a.name), ("kind", a.kind.toJson),
    ("required", .bool a.required)]

/-! ## Relationships -/

/-- How many instances one side of a relationship admits. -/
inductive Cardinality where
  | oneToOne
  | oneToZeroOrOne
  | oneToZeroOrMore
  | oneToOneOrMore
  deriving DecidableEq, Repr

namespace Cardinality

def all : List Cardinality := [oneToOne, oneToZeroOrOne, oneToZeroOrMore, oneToOneOrMore]

def name : Cardinality → String
  | oneToOne => "one_to_one"
  | oneToZeroOrOne => "one_to_zero_or_one"
  | oneToZeroOrMore => "one_to_zero_or_more"
  | oneToOneOrMore => "one_to_one_or_more"

def ofName? (s : String) : Option Cardinality := all.find? (fun c => c.name == s)

def toJson (c : Cardinality) : Json := .string c.name

def ofJson? (v : Json) : Option Cardinality := v.name?.bind ofName?

/-- The least number of instances. -/
def least : Cardinality → Nat
  | oneToOne => 1
  | oneToOneOrMore => 1
  | oneToZeroOrOne => 0
  | oneToZeroOrMore => 0

/-- The greatest number of instances, if there is one. -/
def greatest? : Cardinality → Option Nat
  | oneToOne => some 1
  | oneToZeroOrOne => some 1
  | oneToZeroOrMore => none
  | oneToOneOrMore => none

/-- Whether a number of instances is admitted. -/
def admits (c : Cardinality) (count : Nat) : Bool :=
  c.least ≤ count && c.greatest?.all (count ≤ ·)

end Cardinality

/-- A directed relationship between two entities. -/
structure Relationship where
  parent : Entity
  child : Entity
  /-- Parents of one child. -/
  parents : Cardinality
  /-- Children of one parent. -/
  children : Cardinality
  deriving DecidableEq, Repr

def Relationship.toJson (r : Relationship) : Json :=
  .object [("parent", r.parent.toJson), ("child", r.child.toJson),
    ("parent_cardinality", r.parents.toJson), ("child_cardinality", r.children.toJson)]

end Catalogue.Schema
