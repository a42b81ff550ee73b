/-!
# Journal entries

What the library reports while it works. An event has a severity of its own: what is discarded is a
warning, everything else is information. Entries are values; nothing is written here.
-/

namespace Catalogue.Journal

/-! ## Severity -/

/-- How grave an entry is. -/
inductive Severity where
  | trace
  | info
  | warn
  | error
  | fatal
  deriving DecidableEq, Repr

namespace Severity

/-- The position in the order of gravity. -/
def rank : Severity → Nat
  | trace => 0
  | info => 1
  | warn => 2
  | error => 3
  | fatal => 4

def name : Severity → String
  | trace => "TRACE"
  | info => "INFO"
  | warn => "WARN"
  | error => "ERROR"
  | fatal => "FATAL"

/-- Reads a level name in any letter case. -/
def ofName? (s : String) : Option Severity :=
  match s.map Char.toLower with
  | "trace" => some trace
  | "info" => some info
  | "warn" => some warn
  | "warning" => some warn
  | "error" => some error
  | "fatal" => some fatal
  | _ => none

end Severity

/-! ## Events -/

/-- What an entry is about. -/
inductive Event where
  /-- A configuration was read from a file. -/
  | configLoaded
  /-- A schema was built. -/
  | schemaBuilt
  /-- A query was compiled. -/
  | queryCompiled
  /-- A term of a query was dropped. -/
  | termDropped
  /-- A coordinate in degrees, minutes and seconds was met. -/
  | sexagesimalUnsupported
  /-- Groups did not nest. -/
  | groupMismatch
  /-- A record was encoded. -/
  | recordEncoded
  /-- A graph was decoded. -/
  | recordDecoded
  /-- A leaf has no place in a record. -/
  | attributeUnhandled
  /-- A value has another kind than its attribute. -/
  | attributeKindMismatch
  /-- A value is not in the table of its attribute. -/
  | enumerationUnknown
  /-- The parts of a date name no instant. -/
  | dateInvalid
  deriving DecidableEq, Repr

namespace Event

def name : Event → String
  | configLoaded => "CONFIG_LOADED"
  | schemaBuilt => "SCHEMA_BUILT"
  | queryCompiled => "QUERY_COMPILED"
  | termDropped => "TERM_DROPPED"
  | sexagesimalUnsupported => "DMS_UNSUPPORTED"
  | groupMismatch => "GROUP_MISMATCH"
  | recordEncoded => "RECORD_ENCODED"
  | recordDecoded => "RECORD_DECODED"
  | attributeUnhandled => "ATTRIBUTE_UNHANDLED"
  | attributeKindMismatch => "ATTRIBUTE_KIND_MISMATCH"
  | enumerationUnknown => "ENUMERATION_UNKNOWN"
  | dateInvalid => "DATE_INVALID"

/-- Every event. -/
def all : List Event :=
  [configLoaded, schemaBuilt, queryCompiled, termDropped, sexagesimalUnsupported, groupMismatch,
    recordEncoded, recordDecoded, attributeUnhandled, attributeKindMismatch, enumerationUnknown,
    dateInvalid]

def ofName? (s : String) : Option Event := all.find? (fun e => e.name == s)

/-- Whether the event reports something that was discarded. -/
def isWarning : Event → Bool
  | termDropped => true
  | sexagesimalUnsupported => true
  | groupMismatch => true
  | attributeKindMismatch => true
  | enumerationUnknown => true
  | dateInvalid => true
  | _ => false

def severity (e : Event) : Severity := if e.isWarning then .warn else .info

end Event

/-! ## Entries -/

/-- A name, a severity and named texts. -/
structure Entry where
  severity : Severity
  event : String
  fields : List (String × String)
  deriving DecidableEq, Repr

namespace Entry

/-- An event at its own severity. -/
def report (e : Event) (fields : List (String × String)) : Entry := ⟨e.severity, e.name, fields⟩

/-- An event as a detail of a traversal. -/
def detail (e : Event) (fields : List (String × String)) : Entry := ⟨.trace, e.name, fields⟩

end Entry

end Catalogue.Journal
