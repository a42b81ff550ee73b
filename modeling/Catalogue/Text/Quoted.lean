import Catalogue.Text.Blank

/-!
# Quoted text

A text stands between two quote characters, and a quote inside it is written twice. Reading is
lenient: blanks around the quotes are dropped, either quote character is accepted, and a text
without quotes stands for itself.

* `double` / `undouble` — the second undoes the first on every text.
-/

namespace Catalogue.Text

/-- Writes every `q` twice. -/
def double (q : Char) : List Char → List Char
  | [] => []
  | c :: rest => if c == q then q :: q :: double q rest else c :: double q rest

/-- Replaces each pair of adjacent `q`s, from the left, by one. -/
def undouble (q : Char) : List Char → List Char
  | [] => []
  | [c] => [c]
  | c :: d :: rest =>
    if c == q && d == q then q :: undouble q rest else c :: undouble q (d :: rest)

/-- The written form of a text between quotes `q`. -/
def quoteWith (q : Char) (s : String) : String :=
  String.ofList (q :: (double q s.toList ++ [q]))

/-- The written form of a text between single quotes. -/
def quote (s : String) : String := quoteWith '\'' s

/-- The part between a leading and a trailing `q`, when the text has both. -/
def between? (q : Char) (cs : List Char) : Option (List Char) :=
  match cs with
  | c :: d :: rest =>
    if c == q && (d :: rest).getLast? == some q then some (d :: rest).dropLast else none
  | _ => none

/-- Drops blanks at the ends, then one level of single or else double quotes. -/
def unquote (s : String) : String :=
  let cs := trimChars s.toList
  match between? '\'' cs with
  | some inner => String.ofList (undouble '\'' inner)
  | none =>
    match between? '"' cs with
    | some inner => String.ofList (undouble '"' inner)
    | none => String.ofList cs

end Catalogue.Text
