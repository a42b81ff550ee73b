import Catalogue.Exchange.Security
import Catalogue.Journal.Line
import Catalogue.Json.Reader
import Catalogue.Query.Compile

/-!
# Configuration

What may be chosen: the order in which kinds of numbers are tried, the vertices of an ellipse, the
content type of records without a type of their own, how releasabilities narrow, and what is
reported. Every field has a default, and the whole is checked before it is used.
-/

namespace Catalogue

open Catalogue.Exchange (Narrowing)
open Catalogue.Journal (Entry Session Severity)
open Catalogue.Query (NumberKind)

/-- Why a configuration is not used. -/
inductive ConfigError where
  /-- The file cannot be read. -/
  | unreadable (path : String)
  /-- The text is no configuration. -/
  | malformed
  /-- The value of a field is not allowed. -/
  | invalid (field reason : String)
  deriving DecidableEq, Repr

namespace ConfigError

def code : ConfigError → String
  | unreadable _ => "BQS_CONFIG_READ"
  | malformed => "BQS_CONFIG_PARSE"
  | invalid _ _ => "BQS_CONFIG_INVALID"

def message : ConfigError → String
  | unreadable path => "Failed to read config '" ++ path ++ "'"
  | malformed => "Invalid config JSON"
  | invalid field reason => "Invalid config value for '" ++ field ++ "': " ++ reason

end ConfigError

/-- The choices of a configuration. -/
structure Config where
  numericOrder : List NumberKind := Query.defaultOrder
  ellipseVertices : Nat := Geometry.defaultVertices
  fallbackContentType : String := "DATA"
  narrowing : Narrowing := .legacy
  logLevel : String := "info"
  deriving DecidableEq, Repr

namespace Config

/-- The first field whose value is not allowed. -/
def validate (c : Config) : Except ConfigError Unit :=
  if c.numericOrder.isEmpty then
    .error (.invalid "numeric_order" "at least one numeric kind is required")
  else if c.ellipseVertices < 3 ∨ Geometry.maxVertices < c.ellipseVertices then
    .error (.invalid "ellipse_vertices"
      ("must be between 3 and 10000, got " ++ toString c.ellipseVertices))
  else if (Text.trim c.fallbackContentType).isEmpty then
    .error (.invalid "fallback_content_type" "must not be empty")
  else if (Severity.ofName? c.logLevel).isNone then
    .error (.invalid "log_level" ("unknown level '" ++ c.logLevel ++ "'"))
  else .ok ()

/-- A count below `2 ^ 64`. -/
def count? (v : Json) : Option Nat :=
  v.integer?.bind fun n => if 0 ≤ n ∧ n < 0x10000000000000000 then some n.toNat else none

def ofJson? (v : Json) : Option Config := do
  let [order, vertices, fallback, narrowing, level] ← v.fields? ["numeric_order",
    "ellipse_vertices", "fallback_content_type", "releasability_merge", "log_level"] | none
  let c : Config := {}
  return {
    numericOrder := ← Json.optional? (Json.items? NumberKind.ofJson?) c.numericOrder order
    ellipseVertices := ← Json.optional? count? c.ellipseVertices vertices
    fallbackContentType := ← Json.optional? Json.string? c.fallbackContentType fallback
    narrowing := ← Json.optional? Narrowing.ofJson? c.narrowing narrowing
    logLevel := ← Json.optional? Json.string? c.logLevel level }

def toJson (c : Config) : Json :=
  .object [("numeric_order", .array (c.numericOrder.map (fun k => .string k.name))),
    ("ellipse_vertices", .integer c.ellipseVertices),
    ("fallback_content_type", .string c.fallbackContentType),
    ("releasability_merge", c.narrowing.toJson), ("log_level", .string c.logLevel)]

/-- Reads and checks the text of a configuration. -/
def parse (s : String) : Except ConfigError Config :=
  match (Json.read? s).bind ofJson? with
  | none => .error .malformed
  | some c => c.validate.map fun _ => c

/-- The threshold of the journal. -/
def severity (c : Config) : Severity := (Severity.ofName? c.logLevel).getD .info

/-- The report of a configuration that was read from a file. -/
def loadedReport (path : String) : Entry := .report .configLoaded [("path", path)]

/-- The choices that concern queries. -/
def queryOptions (c : Config) : Query.Options where
  order := c.numericOrder
  vertices := c.ellipseVertices

end Config

end Catalogue
