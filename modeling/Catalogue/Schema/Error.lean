import Catalogue.Schema.Entity

/-!
# Schema errors

Why declarations are no schema.
-/

namespace Catalogue.Schema

/-- Why declarations are no schema. -/
inductive SchemaError where
  | duplicateEntity (entity : Entity)
  | duplicateAttribute (entity : Entity) (name : String)
  | undeclaredEntity (parent child missing : Entity)
  | duplicateRelationship (parent child : Entity)
  | selfRelationship (entity : Entity)
  | duplicateView (view : String)
  | undeclaredViewRoot (view : String) (root : Entity)
  deriving DecidableEq, Repr

namespace SchemaError

def code : SchemaError → String
  | duplicateEntity _ => "BQS_SCHEMA_DUPLICATE_ENTITY"
  | duplicateAttribute _ _ => "BQS_SCHEMA_DUPLICATE_ATTRIBUTE"
  | undeclaredEntity _ _ _ => "BQS_SCHEMA_UNDECLARED_ENTITY"
  | duplicateRelationship _ _ => "BQS_SCHEMA_DUPLICATE_RELATIONSHIP"
  | selfRelationship _ => "BQS_SCHEMA_SELF_RELATIONSHIP"
  | duplicateView _ => "BQS_SCHEMA_DUPLICATE_VIEW"
  | undeclaredViewRoot _ _ => "BQS_SCHEMA_UNDECLARED_VIEW_ROOT"

def message : SchemaError → String
  | duplicateEntity e => "Entity '" ++ e.name ++ "' declared more than once"
  | duplicateAttribute e name =>
    "Attribute '" ++ name ++ "' declared more than once on '" ++ e.name ++ "'"
  | undeclaredEntity parent child missing =>
    "Relationship " ++ parent.name ++ " -> " ++ child.name ++ " names undeclared entity '"
      ++ missing.name ++ "'"
  | duplicateRelationship parent child =>
    "Relationship " ++ parent.name ++ " -> " ++ child.name ++ " declared more than once"
  | selfRelationship e => "Entity '" ++ e.name ++ "' cannot be related to itself"
  | duplicateView view => "View '" ++ view ++ "' declared more than once"
  | undeclaredViewRoot view root =>
    "View '" ++ view ++ "' is rooted at undeclared entity '" ++ root.name ++ "'"

end SchemaError

end Catalogue.Schema
