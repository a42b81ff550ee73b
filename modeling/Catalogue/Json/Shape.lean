import Catalogue.Number.Binary
import Catalogue.Json.Basic

/-!
# Typed reading of JSON values

Readers of the shapes that records are written in. A reader answers `none` when the value has
another shape.

* `fields?` — a record, given as an object or as an array of its fields in order. Members it does
  not know are skipped; a member it knows may be given once only.
* `name?` — a name, given as a string or as an object with that one member, `null`.
* `tagged?` — a name with a content, given as a record of two fields. A content that comes before
  its name is kept as a whole until the name says how to read it.
-/

namespace Catalogue.Json

open Catalogue.Number

/-! ## Scalars -/

def string? : Json → Option String
  | .string s => some s
  | _ => none

def bool? : Json → Option Bool
  | .bool b => some b
  | _ => none

def integer? : Json → Option Int
  | .integer n => some n
  | _ => none

/-- A number as binary64; an integer is rounded to the nearest. -/
def float? : Json → Option Float
  | .integer n => some (Decimal.finite (n < 0) n.natAbs 0).toFloat
  | .float x => some x
  | _ => none

/-- A number as binary32, rounded to the nearest. -/
def single? : Json → Option Single
  | .integer n => some (.ofNarrow (Decimal.finite (n < 0) n.natAbs 0).toNarrow)
  | .float x => some (.ofFloat x)
  | _ => none

def int16? (v : Json) : Option Int16 := v.integer?.bind Number.int16?

def int32? (v : Json) : Option Int32 := v.integer?.bind Number.int32?

def int64? (v : Json) : Option Int64 := v.integer?.bind Number.int64?

def uint16? (v : Json) : Option UInt16 := v.integer?.bind Number.uint16?

def uint32? (v : Json) : Option UInt32 := v.integer?.bind Number.uint32?

/-- A name: a string, or an object with one member whose value is `null`. -/
def name? : Json → Option String
  | .string s => some s
  | .object [(k, .null)] => some k
  | _ => none

/-- A value that may be `null`. -/
def nullable? {α : Type} (read : Json → Option α) : Json → Option (Option α)
  | .null => some none
  | v => (read v).map some

/-! ## Containers -/

/-- An array whose items all have one shape. -/
def items? {α : Type} (read : Json → Option α) : Json → Option (List α)
  | .array vs => vs.mapM read
  | _ => none

/-- The value of a member that may be given at most once; `none` when it is repeated. -/
def member? (members : List (String × Json)) (key : String) : Option (Option Json) :=
  match members.filter (fun m => m.1 == key) with
  | [] => some none
  | [m] => some (some m.2)
  | _ => none

/-- The fields of a record, in the order of `keys`; an absent field is `none`. -/
def fields? (keys : List String) : Json → Option (List (Option Json))
  | .object members => keys.mapM (member? members)
  | .array vs =>
    if keys.length < vs.length then none
    else some (vs.map some ++ List.replicate (keys.length - vs.length) none)
  | _ => none

/-- A field that must be present. -/
def required? {α : Type} (read : Json → Option α) (field : Option Json) : Option α :=
  field.bind read

/-- A field that has a default. -/
def optional? {α : Type} (read : Json → Option α) (default : α) : Option Json → Option α
  | none => some default
  | some v => read v

/-- Whether the first of two keys comes before the second. -/
def precedes (members : List (String × Json)) (first second : String) : Bool :=
  match members with
  | [] => false
  | (k, _) :: rest => k == first || (k != second && precedes rest first second)

/--
A name under `tag` and a content under `key`. The content may be absent from an object, but not from
an array, where the name is always a string. Nothing in a content may be unreadable when the name
comes after it, not even what the reader of that content would skip.
-/
def tagged? (tag key : String) (v : Json) : Option (String × Option Json) :=
  match v with
  | .array [t, content] => (string? t).map (·, some content)
  | .object members => do
    let t ← (← member? members tag)
    let name ← name? t
    let content ← member? members key
    if precedes members key tag && !content.all isReadable then none
    else return (name, content)
  | _ => none

/-- The content of a name that carries one. -/
def content? {α : Type} (read : Json → Option α) (content : Option Json) : Option α :=
  content.bind read

/-- The content of a name that carries none: absent or `null`. -/
def noContent? : Option Json → Option Unit
  | none => some ()
  | some .null => some ()
  | some _ => none

end Catalogue.Json
