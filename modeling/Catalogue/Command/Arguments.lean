/-!
# Command-line arguments

A command with its options. Every option takes a value, as the next argument or after an equals
sign, and may be given once. Arguments are looked at from left to right. A value after an equals
sign is taken in at once. A value given as the next argument is taken in only when another option
begins or the arguments end; an argument that no command knows is an error before that.
-/

namespace Catalogue.Command

/-- What is to be done. -/
inductive Verb where
  | compile
  | encode
  | decode
  | attributes
  deriving DecidableEq, Repr

namespace Verb

def all : List Verb := [compile, encode, decode, attributes]

def name : Verb → String
  | compile => "compile"
  | encode => "encode"
  | decode => "decode"
  | attributes => "attributes"

def ofName? (s : String) : Option Verb := all.find? (fun v => v.name == s)

end Verb

/-- What a command may be told. -/
inductive Choice where
  | config
  | entity
  | view
  deriving DecidableEq, Repr

/-- The choice an option makes. -/
def choice? (verb : Verb) (name : String) : Option Choice :=
  match name, verb with
  | "config", _ => some .config
  | "entity", .attributes => some .entity
  | "view", .attributes => some .view
  | _, _ => none

/-- Why arguments are no command, or what is to be shown instead. -/
inductive UsageError where
  /-- An option is given twice, or two options exclude each other. -/
  | conflict
  /-- There is no command. -/
  | missingCommand
  | unknownCommand
  | unknownArgument
  /-- An option lacks its value, or a path is empty. -/
  | missingValue
  /-- A value is given to something that takes none. -/
  | needlessValue
  | showHelp
  | showVersion
  deriving DecidableEq, Repr

/-- A command and the values of its options. -/
structure Invocation where
  verb : Verb
  values : List (Choice × String) := []
  deriving DecidableEq, Repr

namespace Invocation

def get? (i : Invocation) (c : Choice) : Option String :=
  (i.values.find? (fun v => v.1 = c)).map Prod.snd

end Invocation

/-! ## Options of a command -/

/-- An option whose value comes as the next argument and has not been taken in. -/
structure Open where
  choice : Choice
  value : Option String := none
  deriving DecidableEq, Repr

/-- Takes in the value of an option. It is the only one, and a path may not be empty. -/
def take (i : Invocation) (c : Choice) (s : String) : Except UsageError Invocation :=
  if (i.get? c).isSome then .error .conflict
  else if c = .config ∧ s = "" then .error .missingValue
  else .ok { i with values := i.values ++ [(c, s)] }

/-- Takes in the value of an open option. -/
def settle (i : Invocation) : Option Open → Except UsageError Invocation
  | none => .ok i
  | some ⟨_, none⟩ => .error .missingValue
  | some ⟨c, some s⟩ => take i c s

/-- Splits an argument at its first equals sign. -/
def splitValue (cs : List Char) : String × Option String :=
  match cs.dropWhile (fun c => c != '=') with
  | _ :: value => (String.ofList (cs.takeWhile (fun c => c != '=')), some (String.ofList value))
  | [] => (String.ofList cs, none)

/-- Reads the arguments after the command. -/
def options (i : Invocation) (pending : Option Open) : List String → Except UsageError Invocation
  | [] => settle i pending
  | arg :: rest =>
    match arg.toList with
    | ['-', '-'] => if rest.isEmpty then settle i pending else .error .unknownArgument
    | '-' :: '-' :: long =>
      let (name, value) := splitValue long
      if name = "help" then
        if value.isSome then .error .needlessValue
        else (settle i pending).bind fun _ => .error .showHelp
      else
        match choice? i.verb name with
        | none => .error .unknownArgument
        | some c =>
          match settle i pending, value with
          | .error e, _ => .error e
          | .ok i, none => options i (some { choice := c }) rest
          | .ok i, some s =>
            match take i c s with
            | .error e => .error e
            | .ok i => options i none rest
    | '-' :: 'h' :: _ => (settle i pending).bind fun _ => .error .showHelp
    | '-' :: _ :: _ => .error .unknownArgument
    | _ =>
      match pending with
      | some ⟨c, none⟩ => options i (some ⟨c, some arg⟩) rest
      | _ => .error .unknownArgument

/-- Whether the options of a command exclude each other. -/
def check (i : Invocation) : Except UsageError Invocation :=
  if (i.get? .entity).isSome && (i.get? .view).isSome then .error .conflict else .ok i

/-! ## Whole commands -/

/-- Whether a word names a command; `help` is one too. -/
def isCommand (name : String) : Bool := name == "help" || (Verb.ofName? name).isSome

/-- Reads the arguments after the word `help`: at most the name of one command. -/
def helpFor : List String → UsageError
  | [] => .showHelp
  | [name] => if isCommand name then .showHelp else .unknownCommand
  | _ => .unknownCommand

/-- Reads all arguments. -/
def parse : List String → Except UsageError Invocation
  | [] => .error .missingCommand
  | first :: rest =>
    match Verb.ofName? first with
    | some verb => (options { verb } none rest).bind check
    | none =>
      if first = "help" then .error (helpFor rest)
      else
        match first.toList with
        | ['-', '-'] =>
          match rest with
          | [] => .error .missingCommand
          | name :: _ =>
            if isCommand name then .error .unknownArgument else .error .unknownCommand
        | '-' :: '-' :: long =>
          let (name, value) := splitValue long
          if name = "help" ∨ name = "version" then
            if value.isSome then .error .needlessValue
            else if name = "help" then .error .showHelp
            else .error .showVersion
          else .error .unknownArgument
        | '-' :: 'h' :: _ => .error .showHelp
        | '-' :: 'V' :: _ => .error .showVersion
        | '-' :: _ :: _ => .error .unknownArgument
        | _ => .error .unknownCommand

end Catalogue.Command
