import HookMachine.Fault
import HookMachine.Limits

/-!
Settings of a runtime, and the names under which they are read and shown.
-/

namespace HookMachine

/-- How much is logged. -/
inductive LogLevel where
  | debug
  | verbose
  | notice
  | warning
deriving DecidableEq, Repr

/-- Severities of log lines, the least severe first. -/
inductive Severity where
  | trace
  | debug
  | info
  | warn
  | error
deriving DecidableEq, Repr

/-- The name of a severity. -/
def Severity.name : Severity → String
  | trace => "trace"
  | debug => "debug"
  | info => "info"
  | warn => "warn"
  | error => "error"

/-- Orders severities. -/
def Severity.rank (s : Severity) : Nat :=
  s.ctorIdx

namespace LogLevel

/-- All levels, the most talkative first. -/
def all : List LogLevel :=
  [debug, verbose, notice, warning]

/-- The name of a level. -/
def name : LogLevel → String
  | debug => "debug"
  | verbose => "verbose"
  | notice => "notice"
  | warning => "warning"

/-- The least severity that is logged. -/
def threshold : LogLevel → Severity
  | debug => .trace
  | verbose => .debug
  | notice => .info
  | warning => .warn

/-- The level with a name, in any case. The names are ASCII, and no letter outside ASCII has
one of theirs as its lower case.
-/
def ofName? (name : String) : Option LogLevel :=
  all.find? fun level => level.name = name.map Char.toLower

end LogLevel

/-- Settings of a runtime. -/
structure Config where
  limits : Limits := {}
  /-- The level of a context that has not set its own. -/
  defaultLevel : Nat := 2
  /-- The level that operations changing protected state require. -/
  privilegedLevel : Nat := 2
  logLevel : LogLevel := .notice
deriving DecidableEq, Repr

/-- The settings by name. -/
inductive Setting where
  | callDepth
  | instructionLimit
  | redirectDepth
  | defaultIdentity
  | privilegedIdentity
  | logLevel
deriving DecidableEq, Repr

namespace Setting

/-- All settings. -/
def all : List Setting :=
  [callDepth, instructionLimit, redirectDepth, defaultIdentity, privilegedIdentity, logLevel]

/-- The name of a setting. -/
def name : Setting → String
  | callDepth => "call-depth"
  | instructionLimit => "instruction-limit"
  | redirectDepth => "redirect-depth"
  | defaultIdentity => "default-identity"
  | privilegedIdentity => "privileged-identity"
  | logLevel => "loglevel"

/-- The setting with exactly this name. -/
def ofName? (name : String) : Option Setting :=
  all.find? fun setting => setting.name = name

end Setting

/-- The text of one setting. -/
def Config.text (config : Config) : Setting → String
  | .callDepth => toString config.limits.callDepth
  | .instructionLimit => toString config.limits.instructions
  | .redirectDepth => toString config.limits.redirectDepth
  | .defaultIdentity => toString config.defaultLevel
  | .privilegedIdentity => toString config.privilegedLevel
  | .logLevel => config.logLevel.name

/-- The text of the setting with a name. -/
def Config.get? (config : Config) (name : String) : Option String :=
  (Setting.ofName? name).map config.text

end HookMachine
