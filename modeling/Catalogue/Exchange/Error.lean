import Catalogue.Geometry.Error
import Catalogue.Graph.Error
import Catalogue.Journal.Entry
import Catalogue.Schema.Attribute

/-!
# Exchange errors

Why a record or a graph is not converted, and results that come with what was reported on the way.
-/

namespace Catalogue.Exchange

open Catalogue.Geometry (GeometryError)
open Catalogue.Graph (GraphError)
open Catalogue.Journal (Entry)
open Catalogue.Schema (Kind)

/-- Why a record or a graph is not converted. -/
inductive ExchangeError where
  /-- The graph is not valid. -/
  | graph (e : GraphError)
  /-- The text of a location is no geometry. -/
  | geometry (e : GeometryError)
  /-- An integer is out of the range of its attribute's kind. -/
  | outOfRange (key : String) (value : Int64) (kind : Kind)
  deriving DecidableEq, Repr

namespace ExchangeError

def code : ExchangeError → String
  | graph e => e.code
  | geometry e => e.code
  | outOfRange _ _ _ => "BQS_CONVERT_OUT_OF_RANGE"

def message : ExchangeError → String
  | graph e => "Invalid record graph: " ++ e.message
  | geometry e => "Invalid geometry: " ++ e.message
  | outOfRange key value kind =>
    "Value " ++ toString value.toInt ++ " of '" ++ key ++ "' does not fit wire kind " ++ kind.name

end ExchangeError

/-- A result or an error, with the reports made before it. -/
structure Reported (α : Type) where
  result : Except ExchangeError α
  entries : List Entry

end Catalogue.Exchange
