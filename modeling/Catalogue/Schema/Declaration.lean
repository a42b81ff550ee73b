import Catalogue.Journal.Entry
import Catalogue.Schema.Basic
import Catalogue.Schema.Error

/-!
# Declaring a schema

Declarations are collected in any order and then checked: first every entity, then every
relationship, then every view, each in the order of declaration. The first violation is the error.
-/

namespace Catalogue.Schema

open Catalogue.Journal

/-- Declarations, each kind in order. -/
structure Declarations where
  entities : List (Entity × List Attribute) := []
  relationships : List Relationship := []
  views : List (String × Entity) := []
  deriving DecidableEq, Repr

namespace Declarations

def entity (d : Declarations) (e : Entity) (attributes : List Attribute) : Declarations :=
  { d with entities := d.entities ++ [(e, attributes)] }

def relate (d : Declarations) (r : Relationship) : Declarations :=
  { d with relationships := d.relationships ++ [r] }

def view (d : Declarations) (name : String) (root : Entity) : Declarations :=
  { d with views := d.views ++ [(name, root)] }

end Declarations

/-- One declaration. -/
inductive Declaration where
  | entity (e : Entity) (attributes : List Attribute)
  | relate (r : Relationship)
  | view (name : String) (root : Entity)
  deriving DecidableEq, Repr

namespace Declarations

/-- Takes in one more declaration. -/
def declare (d : Declarations) : Declaration → Declarations
  | .entity e attributes => d.entity e attributes
  | .relate r => d.relate r
  | .view name root => d.view name root

/-- The declarations of a sequence. -/
def ofList (steps : List Declaration) : Declarations := steps.foldl declare {}

/-! ## Checks -/

/-- The first name that occurs before in a list of attributes. -/
def repeatedName? (seen : List String) : List Attribute → Option String
  | [] => none
  | a :: rest => if a.name ∈ seen then some a.name else repeatedName? (a.name :: seen) rest

/-- No entity repeats an attribute name, and none is declared twice. -/
def checkEntities (seen : List Entity) : List (Entity × List Attribute) → Except SchemaError Unit
  | [] => .ok ()
  | (e, attributes) :: rest =>
    match repeatedName? [] attributes with
    | some name => .error (.duplicateAttribute e name)
    | none =>
      if e ∈ seen then .error (.duplicateEntity e)
      else checkEntities (e :: seen) rest

/-- No relationship is of an entity to itself, undeclared at one end, or repeated. -/
def checkRelationships (known : List Entity) (seen : List (Entity × Entity)) :
    List Relationship → Except SchemaError Unit
  | [] => .ok ()
  | r :: rest =>
    if r.parent = r.child then .error (.selfRelationship r.parent)
    else if r.parent ∉ known then .error (.undeclaredEntity r.parent r.child r.parent)
    else if r.child ∉ known then .error (.undeclaredEntity r.parent r.child r.child)
    else if (r.parent, r.child) ∈ seen then .error (.duplicateRelationship r.parent r.child)
    else checkRelationships known ((r.parent, r.child) :: seen) rest

/-- No view is rooted at an undeclared entity or declared twice. -/
def checkViews (known : List Entity) (seen : List String) :
    List (String × Entity) → Except SchemaError Unit
  | [] => .ok ()
  | (name, root) :: rest =>
    if root ∉ known then .error (.undeclaredViewRoot name root)
    else if name ∈ seen then .error (.duplicateView name)
    else checkViews known (name :: seen) rest

/-! ## Building -/

/-- The schema that the declarations describe. -/
def schema (d : Declarations) : Schema where
  attributes := .ofList d.entities
  relationships := d.relationships
  views := .ofList (d.views.map fun (name, root) => (name, View.ofRoot name root d.relationships))

/-- The schema of the declarations, or the first violation. -/
def build (d : Declarations) : Except SchemaError Schema := do
  let known := d.entities.map Prod.fst
  checkEntities [] d.entities
  checkRelationships known [] d.relationships
  checkViews known [] d.views
  return d.schema

end Declarations

/-- The report of a schema that was built. -/
def builtReport (s : Schema) : Entry :=
  .report .schemaBuilt [("entities", toString s.attributes.length),
    ("relationships", toString s.relationships.length), ("views", toString s.views.length)]

end Catalogue.Schema
