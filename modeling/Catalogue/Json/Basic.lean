import Catalogue.Number.Shortest

/-!
# JSON values

Integers and floats are kept apart, and the members of an object keep their order and their
repetitions, so that a reader of records can refuse a member given twice.

* `Json.unreadable` — well-formed text that denotes no value. It may stand where a value is
  skipped, and every typed reader refuses it.
* `Json.isReadable` — whether a value denotes something in all its parts, so that it can be kept
  as a whole.
* `Json.ofFloat` — a float that is not finite is written as `null`.
-/

namespace Catalogue

/-- A JSON value. -/
inductive Json where
  | null
  | bool (b : Bool)
  | integer (n : Int)
  | float (x : Float)
  | string (s : String)
  | array (items : List Json)
  | object (members : List (String × Json))
  /--
  A number out of range, a string with half of a surrogate pair, an object with such a key, or a
  container nested too deeply.
  -/
  | unreadable
  deriving Inhabited

namespace Json

/-- A float as a number, or `null` when it is not finite. -/
def ofFloat (x : Float) : Json := if x.isFinite then .float x else .null

/-- A value that may be absent. -/
def ofOption {α : Type} (f : α → Json) : Option α → Json
  | none => .null
  | some a => f a

mutual

/-- Whether no part of a value is unreadable. -/
def isReadable : Json → Bool
  | .array items => areReadable items
  | .object members => membersReadable members
  | .unreadable => false
  | _ => true

def areReadable : List Json → Bool
  | [] => true
  | v :: rest => isReadable v && areReadable rest

def membersReadable : List (String × Json) → Bool
  | [] => true
  | (_, v) :: rest => isReadable v && membersReadable rest

end

mutual

/-- Replaces the containers nested deeper than `levels` by unreadable values. -/
def limit (levels : Nat) : Json → Json
  | .array items =>
    match levels with
    | 0 => .unreadable
    | n + 1 => .array (limitItems n items)
  | .object members =>
    match levels with
    | 0 => .unreadable
    | n + 1 => .object (limitMembers n members)
  | v => v

def limitItems (levels : Nat) : List Json → List Json
  | [] => []
  | v :: rest => limit levels v :: limitItems levels rest

def limitMembers (levels : Nat) : List (String × Json) → List (String × Json)
  | [] => []
  | (k, v) :: rest => (k, limit levels v) :: limitMembers levels rest

end

end Json

end Catalogue
