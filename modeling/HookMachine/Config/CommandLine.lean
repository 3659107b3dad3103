/-!
The command line: an optional settings file, an optional log level, help and version.
-/

namespace HookMachine.CommandLine

/-- What a run of the program takes from the command line. -/
structure Options where
  config : Option String := none
  logLevel : Option String := none
deriving DecidableEq, Repr

/-- What the command line asks for. -/
inductive Request where
  | run (options : Options)
  | help
  | version
deriving DecidableEq, Repr

/-- Why a command line is not understood. -/
inductive Mistake where
  | missingValue (flag : String)
  | unrecognised (argument : String)
deriving DecidableEq, Repr

/-- The text of a mistake. -/
def Mistake.message : Mistake → String
  | missingValue flag => s!"{flag} expects a value"
  | unrecognised argument => s!"unrecognised argument '{argument}'"

/-- Reads arguments from the left; help and version end the reading, later options win. -/
def parseInto (options : Options) : List String → Except Mistake Request
  | [] => .ok (.run options)
  | "-h" :: _ | "--help" :: _ => .ok .help
  | "-v" :: _ | "--version" :: _ => .ok .version
  | "-c" :: rest | "--config" :: rest =>
      match rest with
      | path :: rest => parseInto { options with config := some path } rest
      | [] => .error (.missingValue "--config")
  | "--loglevel" :: rest =>
      match rest with
      | name :: rest => parseInto { options with logLevel := some name } rest
      | [] => .error (.missingValue "--loglevel")
  | argument :: rest =>
      if argument.endsWith ".conf" then
        parseInto { options with config := some argument } rest
      else
        .error (.unrecognised argument)

/-- What the arguments after the program's name ask for. -/
def parse (arguments : List String) : Except Mistake Request :=
  parseInto {} arguments

/-- The help text. -/
def usage : String :=
  "Usage: vmhook [OPTIONS] [FILE.conf]\n\nOptions:\n" ++
  "  -c, --config <FILE>      Read settings from FILE\n" ++
  "      --loglevel <LEVEL>   debug | verbose | notice | warning\n" ++
  "  -h, --help               Print this message\n" ++
  "  -v, --version            Print the version"

/-- The version text. -/
def version : String :=
  "vmhook 0.1.0"

end HookMachine.CommandLine
