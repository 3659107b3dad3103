import HookMachine.Config
import HookMachine.Decimal.Reading
import HookMachine.Text.Pieces

/-!
Reading settings from a text: one name and value a line, blank lines and lines starting with
`#` skipped, unknown names skipped, the last value of a name kept. The first line that is
not of this form is reported with its number.
-/

namespace HookMachine.Config

/-- Why a text cannot be read. -/
inductive InputFault where
  | missingFile
  | isDirectory
  /-- A path goes on behind a file. -/
  | notDirectory
  /-- A path, or a name in it, is longer than file systems take. -/
  | nameTooLong
  | notPermitted
  | notUtf8
deriving DecidableEq, Repr

/-- The words for an input fault. -/
def InputFault.text : InputFault → String
  | missingFile => "No such file or directory (os error 2)"
  | isDirectory => "Is a directory (os error 21)"
  | notDirectory => "Not a directory (os error 20)"
  | nameTooLong => "File name too long (os error 36)"
  | notPermitted => "Permission denied (os error 13)"
  | notUtf8 => "stream did not contain valid UTF-8"

/-- Why settings cannot be had. -/
inductive Problem where
  | input (fault : InputFault)
  /-- A line without a value. -/
  | line (number : Nat) (text : String)
  /-- A value that the setting does not take. -/
  | value (setting : Setting) (number : Nat) (text : String)
  | unknownLogLevel (name : String)
deriving DecidableEq, Repr

/-- The text of a problem. -/
def Problem.message : Problem → String
  | input fault => s!"Failed to parse config: IO error: {fault.text}"
  | line number text => s!"Failed to parse config: Invalid line format at line {number}: {text}"
  | value setting number text =>
      s!"Failed to parse config: Invalid value for parameter '{setting.name}' at line {number}: {text}"
  | unknownLogLevel name => s!"Configuration error: unknown log level '{name}'"

/-- An unsigned decimal below `bound`, with an optional plus sign. -/
def natural? (bound : Nat) (cs : List Char) : Option Nat :=
  let digits :=
    match cs with
    | '+' :: rest => rest
    | _ => cs
  (Decimal.digits? digits).filter (· < bound)

/-- The settings after `setting` took the value spelled by `cs`, if it takes it. -/
def assign? (config : Config) (setting : Setting) (cs : List Char) : Option Config :=
  let word := natural? UInt64.size cs
  let level := natural? (maxLevel + 1) cs
  match setting with
  | .callDepth => word.map fun n => { config with limits.callDepth := n }
  | .instructionLimit => word.map fun n => { config with limits.instructions := n }
  | .redirectDepth => word.map fun n => { config with limits.redirectDepth := n }
  | .defaultIdentity => level.map fun n => { config with defaultLevel := n }
  | .privilegedIdentity => level.map fun n => { config with privilegedLevel := n }
  | .logLevel => (LogLevel.ofName? (String.ofList cs)).map fun l => { config with logLevel := l }

/-- What one line does to the settings; `number` counts lines from 1. -/
def readLine (config : Config) (number : Nat) (text : List Char) : Except Problem Config :=
  let line := Text.trim text
  if line.isEmpty || line.head? = some '#' then
    .ok config
  else
    let name := line.takeWhile fun c => !Text.isBlank c
    match line.dropWhile fun c => !Text.isBlank c with
    | [] => .error (.line number (String.ofList line))
    | rest =>
        match Setting.ofName? (String.ofList (name.map Char.toLower)) with
        | none => .ok config
        | some setting =>
            let value := Text.trim rest
            match assign? config setting value with
            | some config => .ok config
            | none => .error (.value setting number (String.ofList value))

/-- Reads lines in order, numbered from `number` on, of which any may fail to be had. -/
def readLines (config : Config) (number : Nat)
    : List (Except InputFault (List Char)) → Except Problem Config
  | [] => .ok config
  | .error fault :: _ => .error (.input fault)
  | .ok line :: rest => do
      let config ← readLine config number line
      readLines config (number + 1) rest

/-- The settings that a text makes of the default settings. -/
def parse (text : String) : Except Problem Config :=
  readLines {} 1 ((Text.pieces '\n' text.toList).map .ok)

/-- The text of a line of bytes, if they are UTF-8. -/
def decodeLine (line : List UInt8) : Except InputFault (List Char) :=
  match String.fromUTF8? ⟨line.toArray⟩ with
  | some text => .ok text.toList
  | none => .error .notUtf8

/-- The settings in the bytes of a file; a line that is not UTF-8 counts when it is reached.
-/
def ofBytes (bytes : ByteArray) : Except Problem Config :=
  readLines {} 1 ((Text.pieces 10 bytes.toList).map decodeLine)

/-- The settings in a file, which may be missing. -/
def ofFile (file : Except InputFault ByteArray) : Except Problem Config :=
  match file with
  | .ok bytes => ofBytes bytes
  | .error fault => .error (.input fault)

/-- The settings with the log level given on a command line. -/
def withLogLevel (config : Config) (name : Option String) : Except Problem Config :=
  match name with
  | none => .ok config
  | some name =>
      match LogLevel.ofName? name with
      | some level => .ok { config with logLevel := level }
      | none => .error (.unknownLogLevel name)

end HookMachine.Config
