import Catalogue.Command.Arguments
import Catalogue.Config
import Catalogue.Exchange.Decode
import Catalogue.Schema.Standard

/-!
# Running a command

A command reads one JSON document and answers with another: a tree becomes a filter, a record a
graph, a graph a record; the attributes of an entity or a view are listed without input. What is
reported goes to a session of the journal. Files and input are given as values.

* `execute` — the answer of a command, with the threshold that its configuration sets.
* `answer` — the answer of a command, with the threshold left as it is.
-/

namespace Catalogue.Command

open Catalogue.Journal (Entry Session)
open Catalogue.Schema (fullView standard)

/-! ## Errors -/

/-- Why a command has no answer. -/
inductive CommandError where
  | config (e : ConfigError)
  | query (e : Query.QueryError)
  | exchange (e : Exchange.ExchangeError)
  /-- The input is no text. -/
  | unreadableInput
  /-- The input is blank. -/
  | emptyInput
  /-- The input is not the document that is expected. -/
  | malformedInput
  deriving DecidableEq, Repr

namespace CommandError

def code : CommandError → String
  | config e => e.code
  | query e => e.code
  | exchange e => e.code
  | unreadableInput => "BQS_CLI_IO_ERROR"
  | emptyInput => "BQS_CLI_INVALID_INPUT"
  | malformedInput => "BQS_CLI_INVALID_INPUT"

def message : CommandError → String
  | config e => e.message
  | query e => e.message
  | exchange e => e.message
  | unreadableInput => "I/O error"
  | emptyInput => "Invalid input: Empty input"
  | malformedInput => "Invalid input: JSON error"

end CommandError

/-- An answer with the reports made on the way. -/
structure Answer where
  result : Except CommandError Json
  entries : List Entry

/-! ## Input -/

/-- Reads one document; `none` is input that is no text. -/
def document {α : Type} (read : Json → Option α) (input : Option String) :
    Except CommandError α :=
  match input with
  | none => .error .unreadableInput
  | some s =>
    if (Text.trim s).isEmpty then .error .emptyInput
    else
      match (Json.read? s).bind read with
      | some a => .ok a
      | none => .error .malformedInput

/-- The configuration of an invocation: from a file, or the default one. -/
def configure (files : String → Option String) (i : Invocation) :
    Except ConfigError Config × List Entry :=
  match i.get? .config with
  | none => (.ok {}, [])
  | some path =>
    match files path with
    | none => (.error (.unreadable path), [])
    | some s =>
      match Config.parse s with
      | .error e => (.error e, [])
      | .ok c => (.ok c, [Config.loadedReport path])

/-! ## Answers -/

/-- The filter of a tree and its written form; both `null` when every term was dropped. -/
def filterJson (f : Option Filter) : Json :=
  .object [("filter", .ofOption Filter.toJson f), ("text", .ofOption (fun f => .string f.text) f)]

def compileAnswer (c : Config) (tree : Query.Node) : Answer :=
  match Query.compile c.queryOptions tree with
  | .ok compiled => ⟨.ok (filterJson compiled.filter), compiled.entries⟩
  | .error e => ⟨.error (.query e), []⟩

/-- The result of an exchange as an answer. -/
def exchangeAnswer {α : Type} (toJson : α → Json) (r : Exchange.Reported α) : Answer :=
  match r.result with
  | .ok a => ⟨.ok (toJson a), r.entries⟩
  | .error e => ⟨.error (.exchange e), r.entries⟩

def encodeAnswer (r : Record) : Answer := exchangeAnswer Graph.toJson (Exchange.encode r)

def decodeAnswer (c : Config) (g : Graph) : Answer :=
  exchangeAnswer Record.toJson (Exchange.decode c.fallbackContentType c.narrowing g)

/-- Attributes as a list of objects. -/
def attributesArray (as : List Schema.Attribute) : Json := .array (as.map Schema.Attribute.toJson)

/-- The attributes of an entity, or else of a view; without either, of the view of all entities. -/
def attributeListing (entity view : Option String) : Json :=
  match entity with
  | some name =>
    .object [("entity", .string name),
      ("attributes", attributesArray (standard.attributesOfName name))]
  | none =>
    let view := view.getD fullView
    let entities := (standard.view? view).map fun v => v.entities
    .object [("view", .string view),
      ("entities", .ofOption (fun es => .array (es.map Schema.Entity.toJson)) entities),
      ("attributes", attributesArray (standard.viewAttributes view))]

/-- The answer to a document that may not be the expected one. -/
def respond {α : Type} (d : Except CommandError α) (f : α → Answer) : Answer :=
  match d with
  | .ok a => f a
  | .error e => ⟨.error e, []⟩

/-- The answer of a command under a configuration. -/
def answerWith (c : Config) (i : Invocation) (input : Option String) : Answer :=
  match i.verb with
  | .compile => respond (document Query.Node.ofJson? input) (compileAnswer c)
  | .encode => respond (document Record.ofJson? input) encodeAnswer
  | .decode => respond (document Graph.ofJson? input) (decodeAnswer c)
  | .attributes => ⟨.ok (attributeListing (i.get? .entity) (i.get? .view)), []⟩

/-! ## Commands -/

/-- Runs a command and leaves the threshold of the session. -/
def answer (files : String → Option String) (i : Invocation) (input : Option String)
    (s : Session) : Except CommandError Json × Session :=
  let (config, entries) := configure files i
  let s := s.log entries
  match config with
  | .error e => (.error (.config e), s)
  | .ok c =>
    let a := answerWith c i input
    (a.result, s.log a.entries)

/-- Runs a command; from its configuration on, the threshold is the configured one. -/
def execute (files : String → Option String) (i : Invocation) (input : Option String)
    (s : Session) : Except CommandError Json × Session :=
  let (config, entries) := configure files i
  let s := s.log entries
  match config with
  | .error e => (.error (.config e), s)
  | .ok c =>
    let s := s.threshold c.severity
    let a := answerWith c i input
    (a.result, s.log a.entries)

/-- The object in which a result is written. -/
def envelope : Except CommandError Json → Json
  | .ok data => .object [("status", .string "ok"), ("data", data)]
  | .error e =>
    .object [("status", .string "error"), ("code", .string e.code), ("message", .string e.message)]

end Catalogue.Command
