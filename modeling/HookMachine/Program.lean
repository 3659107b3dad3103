import HookMachine.Config.CommandLine
import HookMachine.Config.Reader
import HookMachine.SelfCheck

/-!
The program: it reads its settings, runs the self-check and reports how that went.
-/

namespace HookMachine.Program

/-- What a run leaves behind. -/
structure Report where
  exitCode : UInt32 := 0
  /-- What is printed besides the log. -/
  output : String := ""
  errors : String := ""
  /-- The log lines that are severe enough to be shown. -/
  log : List (Severity × String) := []
  /-- Why the self-check failed, if it did. -/
  failure : Option String := none

/-- The report of a run that ends before the self-check. -/
def Report.rejection (errors : String) : Report :=
  { exitCode := 1, errors }

/-- The log of a self-check. -/
def log (outcome : SelfCheck.Outcome) (failure : Option String) : List (Severity × String) :=
  let ending :=
    match failure with
    | none => (Severity.info, "self-check passed")
    | some text => (Severity.error, s!"self-check failed: {text}")
  (.info, "starting self-check")
    :: outcome.passed.map (fun name => (Severity.info, s!"ok: {name}")) ++ [ending]

/-- Runs the self-check and reports it. -/
def selfCheck (config : Config) : Report :=
  let outcome := SelfCheck.run config
  let failure :=
    match outcome.result with
    | .ok () => none
    | .error (.failed failure) => some failure.message
    | .error .outOfFuel => some "the self-check does not end"
  { exitCode := if failure.isNone then 0 else 1
    log :=
      (log outcome failure).filter fun line =>
        config.logLevel.threshold.rank ≤ line.1.rank
    failure }

/-- The settings that options select; `file` looks files up. -/
def settings (options : CommandLine.Options) (file : String → Except Config.InputFault ByteArray)
    : Except Config.Problem Config := do
  let config ←
    match options.config with
    | some path => Config.ofFile (file path)
    | none => .ok {}
  config.withLogLevel options.logLevel

/-- Runs the program on the arguments after its name. -/
def run (arguments : List String) (file : String → Except Config.InputFault ByteArray) : Report :=
  match CommandLine.parse arguments with
  | .error mistake => .rejection s!"vmhook: {mistake.message}\n{CommandLine.usage}\n"
  | .ok .help => { output := CommandLine.usage ++ "\n" }
  | .ok .version => { output := CommandLine.version ++ "\n" }
  | .ok (.run options) =>
      match settings options file with
      | .error problem => .rejection s!"Error: {problem.message}\n"
      | .ok config => selfCheck config

/-- The file that the arguments name, if they ask for a run with one. -/
def configPath? (arguments : List String) : Option String :=
  match CommandLine.parse arguments with
  | .ok (.run options) => options.config
  | _ => none

end HookMachine.Program
