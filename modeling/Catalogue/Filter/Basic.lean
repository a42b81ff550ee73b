import Catalogue.Filter.Operator
import Catalogue.Filter.Value

/-!
# Filter trees

A filter is a predicate on one attribute, or a conjunction, disjunction or negation of filters.

* `Filter.predicates` — the predicates of a filter from left to right.
* `Filter.text` — the written form; connectives stand in round brackets.
* `Filter.toJson` and `Filter.ofJson?` — the serialised form and its reader.
-/

namespace Catalogue

open Catalogue.Filter (Operator Value)

namespace Filter

/-- A test of one attribute. -/
structure Predicate where
  subject : String
  operator : Operator
  value : Value

namespace Predicate

/-- The written form; the test for presence shows no operand. -/
def text (p : Predicate) : String :=
  match p.operator with
  | .exists => p.subject ++ " exists"
  | o => p.subject ++ " " ++ o.text ++ " " ++ p.value.display

def toJson (p : Predicate) : Json :=
  .object [("attribute", .string p.subject), ("operator", p.operator.toJson),
    ("value", p.value.toJson)]

def ofJson? (v : Json) : Option Predicate := do
  let [subject, operator, value] ← v.fields? ["attribute", "operator", "value"] | none
  return {
    subject := ← Json.required? Json.string? subject
    operator := ← Json.required? Operator.ofJson? operator
    value := ← Json.required? Value.ofJson? value }

end Predicate

end Filter

/-- A boolean combination of predicates. -/
inductive Filter where
  | and (children : List Filter)
  | or (children : List Filter)
  | not (child : Filter)
  | predicate (p : Filter.Predicate)

namespace Filter

/-- A filter that is one predicate. -/
def test (subject : String) (operator : Operator) (value : Value) : Filter :=
  .predicate ⟨subject, operator, value⟩

/-! ## Views -/

mutual

/-- The predicates of a filter, from left to right. -/
def predicates : Filter → List Predicate
  | .and children => predicatesAll children
  | .or children => predicatesAll children
  | .not child => child.predicates
  | .predicate p => [p]

def predicatesAll : List Filter → List Predicate
  | [] => []
  | f :: rest => f.predicates ++ predicatesAll rest

end

mutual

/-- How deep a filter nests; a predicate has depth one. -/
def depth : Filter → Nat
  | .and children => 1 + depthAll children
  | .or children => 1 + depthAll children
  | .not child => 1 + child.depth
  | .predicate _ => 1

/-- The greatest depth in a list, zero if it is empty. -/
def depthAll : List Filter → Nat
  | [] => 0
  | f :: rest => max f.depth (depthAll rest)

end

/-! ## Text -/

mutual

/-- The written form of a filter. -/
def text : Filter → String
  | .and children => "(" ++ " AND ".intercalate (texts children) ++ ")"
  | .or children => "(" ++ " OR ".intercalate (texts children) ++ ")"
  | .not child => "NOT " ++ child.text
  | .predicate p => p.text

def texts : List Filter → List String
  | [] => []
  | f :: rest => f.text :: texts rest

end

/-! ## Serialised form -/

mutual

/-- An object with one member, named for the kind of the node. -/
def toJson : Filter → Json
  | .and children => .object [("and", .array (toJsonAll children))]
  | .or children => .object [("or", .array (toJsonAll children))]
  | .not child => .object [("not", child.toJson)]
  | .predicate p => .object [("predicate", p.toJson)]

def toJsonAll : List Filter → List Json
  | [] => []
  | f :: rest => f.toJson :: toJsonAll rest

end

mutual

/-- Reads the serialised form of a filter. -/
def ofJson? : Json → Option Filter
  | .object [(kind, content)] => ofMember? kind content
  | _ => none

/-- Reads the content of a node of a named kind. -/
def ofMember? (kind : String) : Json → Option Filter
  | .array items =>
    match kind with
    | "and" => (ofJsonAll? items).map .and
    | "or" => (ofJsonAll? items).map .or
    | "predicate" => (Predicate.ofJson? (.array items)).map .predicate
    | _ => none
  | .object members =>
    match kind with
    | "not" =>
      match members with
      | [(k, v)] => (ofMember? k v).map .not
      | _ => none
    | "predicate" => (Predicate.ofJson? (.object members)).map .predicate
    | _ => none
  | _ => none

def ofJsonAll? : List Json → Option (List Filter)
  | [] => some []
  | v :: rest => do
    let f ← ofJson? v
    let fs ← ofJsonAll? rest
    return f :: fs

end

end Filter

end Catalogue
