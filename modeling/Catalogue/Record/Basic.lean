import Catalogue.Json.Shape
import Catalogue.Record.Product
import Catalogue.Time.Reading
import Catalogue.Time.Writing

/-!
# Catalogue records

A flat record: values under keys, the identifiers of associated records, a type and a content-type
name. The keys are kept sorted, and each has one value.

* `Attributes.get?` and `Attributes.set` — what was set is what is found, and nothing else changes.
-/

namespace Catalogue

namespace Record

open Catalogue.Time

/-! ## Values -/

/-- The value of one key. -/
inductive Value where
  | text (s : String)
  | integer (n : Int64)
  | float (x : Float)
  | bool (b : Bool)
  | date (t : Instant)
  /-- The text of a geometry. -/
  | geometry (wkt : String)
  deriving DecidableEq

namespace Value

/-- The name of the kind of a value. -/
def kind : Value → String
  | text _ => "text"
  | integer _ => "integer"
  | float _ => "float"
  | bool _ => "bool"
  | date _ => "date"
  | geometry _ => "geometry"

/-- The written form of a value. -/
def display : Value → String
  | text s => s
  | geometry wkt => wkt
  | integer n => toString n.toInt
  | float x => Number.text x
  | bool b => if b then "true" else "false"
  | date t => t.offsetStamp

/-- Equality in which the two zeros are equal. -/
def same : Value → Value → Bool
  | float x, float y => x == y
  | a, b => a = b

def content : Value → Json
  | text s => .string s
  | integer n => .integer n.toInt
  | float x => .ofFloat x
  | bool b => .bool b
  | date t => .string t.stamp
  | geometry wkt => .string wkt

def toJson (v : Value) : Json := .object [("type", .string v.kind), ("value", v.content)]

/-- The value of a named kind with a given content. -/
def ofKind? (kind : String) (c : Option Json) : Option Value :=
  match kind with
  | "text" => (Json.content? Json.string? c).map text
  | "integer" => (Json.content? Json.int64? c).map integer
  | "float" => (Json.content? Json.float? c).map float
  | "bool" => (Json.content? Json.bool? c).map bool
  | "date" => (Json.content? (fun v => v.string?.bind stamp?) c).map date
  | "geometry" => (Json.content? Json.string? c).map geometry
  | _ => none

def ofJson? (v : Json) : Option Value := do
  let (kind, c) ← v.tagged? "type" "value"
  ofKind? kind c

end Value

/-! ## Attributes -/

/-- Values under sorted keys. -/
abbrev Attributes := List (String × Value)

namespace Attributes

def get? (a : Attributes) (key : String) : Option Value :=
  match a with
  | [] => none
  | (k, v) :: rest => if k == key then some v else get? rest key

/-- Puts a value under a key, in place of the value that was there. -/
def set (a : Attributes) (key : String) (value : Value) : Attributes :=
  match a with
  | [] => [(key, value)]
  | (k, v) :: rest =>
    if k == key then (key, value) :: rest
    else if key < k then (key, value) :: (k, v) :: rest
    else (k, v) :: set rest key value

theorem get?_set_self (a : Attributes) (key : String) (value : Value) :
    (a.set key value).get? key = some value := by
  induction a with
  | nil => simp [set, get?]
  | cons m rest ih =>
    obtain ⟨k, v⟩ := m
    rw [set]
    split
    · simp [get?]
    · split
      · simp [get?]
      · next h _ => simp [get?, h, ih]

theorem get?_set_of_ne (a : Attributes) {key other : String} (value : Value) (h : key ≠ other) :
    (a.set key value).get? other = a.get? other := by
  induction a with
  | nil => simp [set, get?, h]
  | cons m rest ih =>
    obtain ⟨k, v⟩ := m
    rw [set]
    split
    · next hk => simp_all [get?]
    · split
      · simp [get?, h]
      · simp [get?, ih]

/-- Reads an object whose members are values; of a repeated key the last value counts. -/
def ofJson? : Json → Option Attributes
  | .object members =>
    members.foldlM (fun a m => (Value.ofJson? m.2).map (a.set m.1 ·)) []
  | _ => none

def toJson (a : Attributes) : Json := .object (a.map fun (k, v) => (k, v.toJson))

/-- Equality in which the two zeros are equal. -/
def same : Attributes → Attributes → Bool
  | [], [] => true
  | (k, v) :: as, (l, w) :: bs => k == l && v.same w && same as bs
  | _, _ => false

end Attributes

end Record

open Catalogue.Record

/-! ## Records -/

/-- A flat catalogue record. -/
structure Record where
  attributes : Attributes := []
  /-- The identifiers of associated records. -/
  associations : List String := []
  product : Option Product := none
  contentType : Option String := none
  deriving DecidableEq

namespace Record

def get? (r : Record) (key : String) : Option Value := r.attributes.get? key

def set (r : Record) (key : String) (value : Value) : Record :=
  { r with attributes := r.attributes.set key value }

/-- The text under a key. -/
def text? (r : Record) (key : String) : Option String :=
  match r.get? key with
  | some (.text s) => some s
  | _ => none

def isSet (r : Record) (key : String) : Bool := (r.get? key).isSome

/-- Equality in which the two zeros are equal. -/
def same (r s : Record) : Bool :=
  r.attributes.same s.attributes && r.associations == s.associations && r.product = s.product
    && r.contentType == s.contentType

/-- The members of a record that may be left out. -/
def optionalMembers (r : Record) : List (String × Json) :=
  (if r.associations.isEmpty then []
    else [("associations", .array (r.associations.map .string))])
  ++ (match r.product with
    | none => []
    | some p => [("record_type", p.toJson)])
  ++ (match r.contentType with
    | none => []
    | some s => [("content_type", .string s)])

def toJson (r : Record) : Json :=
  .object (("attributes", r.attributes.toJson) :: r.optionalMembers)

def ofJson? (v : Json) : Option Record := do
  let [attributes, associations, product, contentType] ←
    v.fields? ["attributes", "associations", "record_type", "content_type"] | none
  return {
    attributes := ← Json.optional? Attributes.ofJson? [] attributes
    associations := ← Json.optional? (Json.items? Json.string?) [] associations
    product := ← Json.optional? (Json.nullable? Product.ofJson?) none product
    contentType := ← Json.optional? (Json.nullable? Json.string?) none contentType }

end Record

end Catalogue
