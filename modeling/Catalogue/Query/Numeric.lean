import Catalogue.Filter.Value

/-!
# Kinds of numbers

A number literal is tried as each kind of a list in order and becomes a value of the first kind
that reads it. In the default list every integer is a short or a long, so that no literal becomes
an int.
-/

namespace Catalogue.Query

open Catalogue.Filter (Value)
open Catalogue.Number

/-- A kind of number. -/
inductive NumberKind where
  | short
  | int
  | long
  | float
  | double
  deriving DecidableEq, Repr

namespace NumberKind

def name : NumberKind → String
  | short => "short"
  | int => "int"
  | long => "long"
  | float => "float"
  | double => "double"

def all : List NumberKind := [short, int, long, float, double]

def ofName? (s : String) : Option NumberKind := all.find? (fun k => k.name == s)

def ofJson? (v : Json) : Option NumberKind := v.name?.bind ofName?

/-- Reads a whole text as a number of this kind; a float has to be finite. -/
def read? (k : NumberKind) (s : String) : Option Value :=
  match k with
  | short => ((integer? s).bind int16?).map .short
  | int => ((integer? s).bind int32?).map .int
  | long => ((integer? s).bind int64?).map .long
  | float => ((Single.read? s).filter (fun x => x.value.isFinite)).map .float
  | double => (finite? s).map .double

end NumberKind

/-- The order in which kinds are tried unless another one is configured. -/
def defaultOrder : List NumberKind := [.short, .long, .int, .float, .double]

/-- The value of a number literal under an order of kinds; blanks at its ends are dropped. -/
def numberValue? (order : List NumberKind) (s : String) : Option Value :=
  order.findSome? (fun k => k.read? (Text.trim s))

end Catalogue.Query
