import Catalogue.Json.Token

/-!
# Reading JSON text

The tokens of a text drive a machine with a stack of open containers; each token either extends the
innermost container, opens one or closes one. The text is accepted when the machine ends with one
complete value. Containers nested more than 127 deep, and objects with a key that denotes nothing,
are kept as unreadable values.
-/

namespace Catalogue.Json

/-- The members of an object; a key is `none` when it denotes nothing. -/
abbrev Members := List (Option String × Json)

/-- The object with given members, unreadable when one of its keys is. -/
def ofMembers (members : Members) : Json :=
  match members.mapM fun (k, v) => k.map (·, v) with
  | some members => .object members
  | none => .unreadable

/-- An open container with what it holds so far, last first. -/
inductive Frame where
  | array (items : List Json)
  | object (members : Members) (key : Option String)

/-- What may come next. -/
inductive Expect where
  /-- A value. -/
  | value
  /-- A value or the end of an array that is still empty. -/
  | firstItem
  /-- A key, or the end of an object that is still empty when `canClose`. -/
  | key (members : Members) (canClose : Bool)
  /-- The colon after a key. -/
  | colon (members : Members) (key : Option String)
  /-- A comma or the end of the innermost container. -/
  | next
  /-- Nothing: the value is complete. -/
  | done (v : Json)

/-- The open containers, innermost first, and what may come next. -/
structure Machine where
  stack : List Frame
  expect : Expect

namespace Machine

/-- Nothing read yet. -/
def start : Machine := ⟨[], .value⟩

/-- Hands a complete value to the innermost container. -/
def complete (v : Json) : List Frame → Machine
  | [] => ⟨[], .done v⟩
  | .array items :: rest => ⟨.array (v :: items) :: rest, .next⟩
  | .object members key :: rest => ⟨.object ((key, v) :: members) key :: rest, .next⟩

/-- Reads a token where a value may begin. -/
def value? (stack : List Frame) : Token → Option Machine
  | .openArray => some ⟨.array [] :: stack, .firstItem⟩
  | .openObject => some ⟨stack, .key [] true⟩
  | .text (some s) => some (complete (.string s) stack)
  | .text none => some (complete .unreadable stack)
  | .scalar v => some (complete v stack)
  | _ => none

/-- Reads one token. -/
def step? (m : Machine) (t : Token) : Option Machine :=
  match m.expect with
  | .value => value? m.stack t
  | .firstItem =>
    match t, m.stack with
    | .closeArray, .array _ :: rest => some (complete (.array []) rest)
    | t, stack => value? stack t
  | .key members canClose =>
    match t with
    | .text k => some ⟨m.stack, .colon members k⟩
    | .closeObject => if canClose then some (complete (.object []) m.stack) else none
    | _ => none
  | .colon members k =>
    match t with
    | .colon => some ⟨.object members k :: m.stack, .value⟩
    | _ => none
  | .next =>
    match t, m.stack with
    | .comma, .array items :: rest => some ⟨.array items :: rest, .value⟩
    | .comma, .object members _ :: rest => some ⟨rest, .key members false⟩
    | .closeArray, .array items :: rest => some (complete (.array items.reverse) rest)
    | .closeObject, .object members _ :: rest => some (complete (ofMembers members.reverse) rest)
    | _, _ => none
  | .done _ => none

/-- Reads tokens to their end. -/
def run? (m : Machine) : List Token → Option Machine
  | [] => some m
  | t :: rest => (m.step? t).bind (run? · rest)

end Machine

/-- How deep containers may nest. -/
def levels : Nat := 127

/-- Reads a whole text as one value, nested however deep. -/
def readDeep? (s : String) : Option Json := do
  let m ← Machine.start.run? (← tokens s.toList)
  match m.expect with
  | .done v => return v
  | _ => none

/-- Reads a whole text as one value. -/
def read? (s : String) : Option Json := (readDeep? s).map (limit levels)

end Catalogue.Json
