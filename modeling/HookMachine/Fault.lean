import HookMachine.Value

/-!
Why an operation fails. Faults arise in the machine itself; refusals arise in the operations
around it and become faults when they cross back into running code.
-/

namespace HookMachine

/-- What an argument was required to be. -/
inductive Need where
  | function
  | integer
  | string
  | table
  | tableOrNil
  | aTable
  | count
deriving DecidableEq, Repr

/-- The words for a requirement. -/
def Need.text : Need → String
  | function => "must be a function"
  | integer => "must be an integer"
  | string => "must be a string"
  | table => "expects a table"
  | tableOrNil => "must be a table or nil"
  | aTable => "must be a table"
  | count => "must be a non-negative integer"

/-- Why an operation on a runtime is refused. -/
inductive Refusal where
  /-- `subject` did not get what it needs. -/
  | needs (subject : String) (need : Need) (got : Kind)
  /-- A function was expected and something else given. -/
  | notFunction (got : Kind)
  /-- A required argument is nil. -/
  | missing (what : String)
  | selfReplacement
  | unknownObjectKind (name : String)
  | levelOutOfRange (level : Int)
  | notDuplicable
  | noMetatable (of : Kind)
  | noMetamethod (name : String)
  | notAnEnvironment
  /-- A step of the self-check did not come out as it should. -/
  | checkFailed (name : String)
  /-- The caller's level is lower than the operation requires. -/
  | denied (operation : String) (required actual : Nat)
deriving DecidableEq, Repr

/-- The highest capability level. -/
def maxLevel : Nat := 8

/-- The four categories of refusals. -/
inductive RefusalCategory where
  | invalidArgument
  | outOfRange
  | invariant
  | denied
deriving DecidableEq, Repr

/-- The category of a refusal. -/
def Refusal.category : Refusal → RefusalCategory
  | needs .. | notFunction _ | missing _ | selfReplacement | unknownObjectKind _ => .invalidArgument
  | levelOutOfRange _ => .outOfRange
  | notDuplicable | noMetatable _ | noMetamethod _ | notAnEnvironment
  | checkFailed _ => .invariant
  | denied .. => .denied

/-- What a refusal says, without its category. -/
def Refusal.reason : Refusal → String
  | needs subject need got => s!"{subject} {need.text}, got {got.name}"
  | notFunction got => s!"expected a function, got {got.name}"
  | missing what => s!"missing {what}"
  | selfReplacement => "a function cannot replace itself"
  | unknownObjectKind name => s!"unknown object kind '{name}'"
  | levelOutOfRange level => s!"identity level out of range: {level} (expected 0..={maxLevel})"
  | notDuplicable => "closure could not be duplicated"
  | noMetatable of => s!"{of.name} value has no metatable"
  | noMetamethod name => s!"metatable has no '{name}'"
  | notAnEnvironment => "cached environment is not a table"
  | checkFailed name => s!"check '{name}' failed"
  | denied operation required actual =>
      s!"{operation} requires identity level {required}, caller has {actual}"

/-- The text of a refusal. -/
def Refusal.message (r : Refusal) : String :=
  match r.category with
  | .invalidArgument => "invalid argument: " ++ r.reason
  | .invariant => "invariant violated: " ++ r.reason
  | .outOfRange | .denied => r.reason

/-- What is wrong with bytecode. -/
inductive Malformation where
  | pastEnd
  | unknownOpcode (code : Nat)
  | noConstant (k : Nat)
  | noUpvalue (index : Nat)
  | noPrototype (index : Nat)
  | missingDescriptor
  | badDescriptor
  | genericFor
  | jumpBeforeStart
deriving DecidableEq, Repr

/-- The words for a malformation. -/
def Malformation.text : Malformation → String
  | pastEnd => "ran past end of code"
  | unknownOpcode code => s!"unknown opcode {code}"
  | noConstant k => s!"no constant {k}"
  | noUpvalue index => s!"no upvalue {index}"
  | noPrototype index => s!"no nested prototype {index}"
  | missingDescriptor => "missing upvalue descriptor"
  | badDescriptor => "upvalue descriptor must be MOVE or GETUPVAL"
  | genericFor => "generic for loops are not supported"
  | jumpBeforeStart => "jump before start of code"

/-- What a value of the wrong kind was used for. -/
inductive Use where
  | index
  | arithmetic
  | length
  | concatenation
deriving DecidableEq, Repr

/-- The words for a use. -/
def Use.text : Use → String
  | index => "index"
  | arithmetic => "perform arithmetic on"
  | length => "get length of"
  | concatenation => "concatenate"

/-- Why running code fails. -/
inductive Fault where
  /-- Raised by a host function, with a text of its own. -/
  | raised (text : String)
  /-- Raised by a host function as a type error. -/
  | raisedType (text : String)
  /-- An operation that code asked for was refused. -/
  | refused (refusal : Refusal)
  /-- The runtime behind a host function is gone; the name is given where there is one. -/
  | dropped (name : Option String)
  | nilKey
  | nanKey
  /-- Reading a field met too many metatables. -/
  | readChain
  /-- Writing a field met too many metatables. -/
  | writeChain
  | redirectChain
  | nanComparison
  | misuse (use : Use) (of : Kind)
  | incomparable (left right : Kind)
  | loopValue (got : Kind)
  | listTarget
  | readOnly
  | stackOverflow
  | instructionLimit
  | invalidHandle
  | foreignHandle
  | malformed (pc : Nat) (why : Malformation)
  | notCallable (got : Kind)
deriving DecidableEq, Repr

/-- The categories of faults. -/
inductive FaultCategory where
  | runtime
  | type
  | readOnly
  | stackOverflow
  | instructionLimit
  | invalidHandle
  | foreignHandle
  | invalidInstruction
  | notCallable
deriving DecidableEq, Repr

namespace Fault

/-- The category of a fault. -/
def category : Fault → FaultCategory
  | raised _ | refused _ | dropped _ | nilKey | nanKey | readChain | writeChain | redirectChain
  | nanComparison => .runtime
  | raisedType _ | misuse .. | incomparable .. | loopValue _ | listTarget => .type
  | readOnly => .readOnly
  | stackOverflow => .stackOverflow
  | instructionLimit => .instructionLimit
  | invalidHandle => .invalidHandle
  | foreignHandle => .foreignHandle
  | malformed .. => .invalidInstruction
  | notCallable _ => .notCallable

/-- What a fault says, without its category. -/
def reason : Fault → String
  | raised text | raisedType text => text
  | refused refusal => refusal.message
  | dropped none => "runtime has been dropped"
  | dropped (some name) => s!"{name}: runtime has been dropped"
  | nilKey => "table index is nil"
  | nanKey => "table index is NaN"
  | readChain => "'__index' chain too long; possible loop"
  | writeChain => "'__newindex' chain too long; possible loop"
  | redirectChain => "redirect chain too deep"
  | nanComparison => "attempt to compare NaN"
  | misuse use of => s!"attempt to {use.text} a {of.name} value"
  | incomparable left right => s!"attempt to compare {left.name} with {right.name}"
  | loopValue got => s!"'for' value must be a number, got {got.name}"
  | listTarget => "SETLIST target is not a table"
  | readOnly => "attempt to modify a readonly table"
  | stackOverflow => "stack overflow"
  | instructionLimit => "instruction limit exceeded"
  | invalidHandle => "invalid handle"
  | foreignHandle => "handle belongs to another interpreter instance"
  | malformed pc why => s!"invalid instruction at pc {pc}: {why.text}"
  | notCallable got => s!"attempt to call a {got.name} value"

/-- The text of a fault. -/
def message (f : Fault) : String :=
  match f.category with
  | .runtime => "runtime error: " ++ f.reason
  | .type => "type error: " ++ f.reason
  | _ => f.reason

/-- The fault of a handle that names no value. -/
def ofMiss : Miss → Fault
  | .stale => invalidHandle
  | .foreign => foreignHandle

end Fault

/-- Why an operation on a runtime fails. -/
inductive Failure where
  | refused (refusal : Refusal)
  | fault (fault : Fault)
deriving DecidableEq, Repr

/-- The text of a failure. -/
def Failure.message : Failure → String
  | refused refusal => refusal.message
  | fault f => f.message

/-- A failure as running code sees it. -/
def Failure.toFault : Failure → Fault
  | refused refusal => .refused refusal
  | fault f => f

end HookMachine
