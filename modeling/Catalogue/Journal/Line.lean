import Catalogue.Journal.Entry
import Catalogue.Json.Writer
import Catalogue.Text.Blank

/-!
# Journal lines

An entry is written as one line: a JSON object with the event, the severity and then the fields in
the order of their keys, fields of one key in the order they were given. The quote, the backslash
and every control character are escaped, so that a field can neither end the line nor its string.

* `Entry.text` — the object; `Entry.line` — the object and the newline after it.
* `Session` — the least severity that is written, and the lines written so far.
-/

namespace Catalogue.Journal

open Catalogue.Text
open Catalogue.Json (escapeCode)

/-- The characters that stand for one character of a string. -/
def escapeChar (c : Char) : List Char :=
  match c with
  | '"' => ['\\', '"']
  | '\\' => ['\\', '\\']
  | '\n' => ['\\', 'n']
  | '\r' => ['\\', 'r']
  | '\t' => ['\\', 't']
  | c => if isControl c then escapeCode c.toNat else [c]

/-- A string between quotes. -/
def stringChars (s : String) : List Char := '"' :: (s.toList.flatMap escapeChar ++ ['"'])

/-- A member of the object: a key and a string. -/
def memberChars (m : String × String) : List Char := stringChars m.1 ++ ':' :: stringChars m.2

/-- The members after the first, each with the comma before it. -/
def tailChars : List (String × String) → List Char
  | [] => []
  | m :: rest => ',' :: (memberChars m ++ tailChars rest)

namespace Entry

/-- The fields in the order of their keys; the order within a key is kept. -/
def sortedFields (e : Entry) : List (String × String) :=
  e.fields.mergeSort fun a b => !(b.1 < a.1)

/-- The members of the object in order. -/
def members (e : Entry) : List (String × String) :=
  ("event", e.event) :: ("severity", e.severity.name) :: e.sortedFields

/-- The object that stands for an entry. -/
def textChars (e : Entry) : List Char :=
  '\x7b' :: (memberChars ("event", e.event)
    ++ tailChars (("severity", e.severity.name) :: e.sortedFields) ++ ['\x7d'])

def text (e : Entry) : String := String.ofList e.textChars

/-- The object and the newline that ends its line. -/
def line (e : Entry) : String := String.ofList (e.textChars ++ ['\n'])

end Entry

/-! ## Sessions -/

/-- A threshold and what has been written, in order. -/
structure Session where
  minimum : Severity
  written : List String
  deriving Repr

namespace Session

/-- Whether an entry of the given severity is written. -/
def shows (s : Session) (severity : Severity) : Bool := s.minimum.rank ≤ severity.rank

/-- Writes the entries that reach the threshold. -/
def log (s : Session) (entries : List Entry) : Session :=
  { s with
    written := s.written ++ (entries.filter (fun e => s.shows e.severity)).map Entry.text }

/-- Changes the threshold for what follows. -/
def threshold (s : Session) (minimum : Severity) : Session := { s with minimum }

end Session

end Catalogue.Journal
