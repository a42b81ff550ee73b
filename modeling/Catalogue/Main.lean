import Catalogue.Command.Run

/-!
# The command line

Reads the arguments, the standard input and a configuration file, and writes the answer to the
standard output as one line, with sorted keys. What is reported goes to the standard error, one
line for each entry.
-/

namespace Catalogue.Command

/-- What is shown when there is no command to run. -/
def usageText : String :=
  "Usage: catalogue <compile|encode|decode|attributes> [--config FILE]\n"
    ++ "       catalogue attributes [--entity NAME | --view NAME]"

/-- The version that is shown. -/
def versionText : String := "catalogue 0.1.0"

/-- What is shown for arguments that are no command, and the exit code. -/
def UsageError.notice : UsageError → String × UInt32
  | .showHelp => (usageText, 0)
  | .showVersion => (versionText, 0)
  | .conflict => ("error: the options exclude each other\n" ++ usageText, 2)
  | .missingCommand => (usageText, 2)
  | .unknownCommand => ("error: unknown command\n" ++ usageText, 2)
  | .unknownArgument => ("error: unknown argument\n" ++ usageText, 2)
  | .missingValue => ("error: an option lacks its value\n" ++ usageText, 2)
  | .needlessValue => ("error: an option takes no value\n" ++ usageText, 2)

/-- The text of a file; `none` when it cannot be read. -/
def fileText? (path : String) : IO (Option String) := do
  try
    return some (← IO.FS.readFile path)
  catch _ =>
    return none

/-- The standard input; `none` when it is no text. -/
def inputText? : IO (Option String) := do
  let bytes ← (← IO.getStdin).readBinToEnd
  return String.fromUTF8? bytes

/-- The text of the configuration file of an invocation. -/
def configText? (i : Invocation) : IO (Option String) :=
  match i.get? .config with
  | none => return none
  | some path => fileText? path

/-- Runs a command and writes its answer. -/
def serve (i : Invocation) : IO UInt32 := do
  let config ← configText? i
  let input ← if i.verb = .attributes then pure (some "") else inputText?
  let (result, session) := execute (fun _ => config) i input ⟨.info, []⟩
  for line in session.written do
    IO.eprintln line
  IO.println (envelope result).sorted.write
  match result with
  | .ok _ => return 0
  | .error e =>
    IO.eprintln ("error: " ++ e.message)
    return 1

end Catalogue.Command

/-- Runs the command that the arguments name. -/
def main (args : List String) : IO UInt32 := do
  match Catalogue.Command.parse args with
  | .ok i => Catalogue.Command.serve i
  | .error e =>
    let (text, exitCode) := e.notice
    if exitCode = 0 then IO.println text else IO.eprintln text
    return exitCode
