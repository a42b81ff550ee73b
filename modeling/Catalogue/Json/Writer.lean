import Catalogue.Json.Basic

/-!
# Writing JSON text

One line without blanks. Strings escape the quote, the backslash and the control characters below
U+0020. Floats have the fewest digits that read back and always a point or an exponent, which sets
them apart from integers.

* `write` — the text of a value, its members in the order they have.
* `sorted` — the value with the members of every object in the order of their keys.
-/

namespace Catalogue.Json

open Catalogue.Number

/-- A hexadecimal digit in lower case. -/
def hexDigit (n : Nat) : Char :=
  if n < 10 then Char.ofNat (48 + n) else Char.ofNat (87 + n)

/-- A four-digit escape. -/
def escapeCode (n : Nat) : List Char :=
  ['\\', 'u', hexDigit (n / 4096 % 16), hexDigit (n / 256 % 16), hexDigit (n / 16 % 16),
    hexDigit (n % 16)]

/-- The characters that stand for one character of a string. -/
def escapeChar (c : Char) : List Char :=
  match c with
  | '"' => ['\\', '"']
  | '\\' => ['\\', '\\']
  | '\x08' => ['\\', 'b']
  | '\x0c' => ['\\', 'f']
  | '\n' => ['\\', 'n']
  | '\r' => ['\\', 'r']
  | '\t' => ['\\', 't']
  | c => if c.toNat < 0x20 then escapeCode c.toNat else [c]

/-- A string between quotes. -/
def stringText (s : String) : String :=
  String.ofList ('"' :: (s.toList.flatMap escapeChar ++ ['"']))

/--
A finite magnitude: positional from `10 ^ -5` up to `10 ^ 16`, with `.0` after a whole number, and
with a power of ten elsewhere.
-/
def floatLayout (digits : Nat) (exponent : Int) : String :=
  let magnitude := exponent + digitCount digits
  if digits ≠ 0 ∧ (magnitude < -4 ∨ 16 < magnitude) then scientific digits exponent
  else if 0 ≤ exponent then positional digits exponent ++ ".0"
  else positional digits exponent

mutual

/-- The text of a value. -/
def write : Json → String
  | .null => "null"
  | .bool true => "true"
  | .bool false => "false"
  | .integer n => toString n
  | .float x => textBy floatLayout .even .double x
  | .string s => stringText s
  | .array items => "[" ++ ",".intercalate (writeItems items) ++ "]"
  | .object members => "\x7b" ++ ",".intercalate (writeMembers members) ++ "\x7d"
  | .unreadable => "null"

def writeItems : List Json → List String
  | [] => []
  | v :: rest => write v :: writeItems rest

def writeMembers : List (String × Json) → List String
  | [] => []
  | (k, v) :: rest => (stringText k ++ ":" ++ write v) :: writeMembers rest

end

mutual

/-- Puts the members of every object in the order of their keys. -/
def sorted : Json → Json
  | .array items => .array (sortedItems items)
  | .object members => .object ((sortedMembers members).mergeSort fun a b => !(b.1 < a.1))
  | v => v

def sortedItems : List Json → List Json
  | [] => []
  | v :: rest => sorted v :: sortedItems rest

def sortedMembers : List (String × Json) → List (String × Json)
  | [] => []
  | (k, v) :: rest => (k, sorted v) :: sortedMembers rest

end

end Catalogue.Json
