import HookMachine.Connection.Registry
import HookMachine.Environment.Cache
import HookMachine.Fault
import HookMachine.Hook.Registry
import HookMachine.Inspection.Criteria
import HookMachine.Prototype

/-!
What a host may ask of a runtime, from outside or from within a function that the runtime
calls, and the type of each answer.
-/

namespace HookMachine

/-- Numbers of live objects and of retained values. -/
structure HeapStats where
  tables : Nat
  closures : Nat
  natives : Nat
  retained : Nat
deriving DecidableEq, Repr

/-- A nested prototype, described or turned into a closure. -/
inductive Nested where
  | description (info : PrototypeInfo)
  | closure (ref : ClosureRef)

/-- What a host may ask of a runtime. -/
inductive Request where
  -- objects
  | newTable
  | assemble (prototype : Prototype)
  | instantiate (prototype : PrototypeRef) (environment : Option TableRef)
  | load (owner : EnvironmentOwner) (prototype : PrototypeRef)
  | contents (table : TableRef)
  | rawGet (table : TableRef) (key : Value)
  | rawSet (table : TableRef) (key value : Value)
  | metatable (of : Value)
  | setMetatable (table : TableRef) (metatable : Option TableRef)
  | isReadOnly (table : TableRef)
  | setReadOnly (table : TableRef) (on : Bool)
  | closureEnvironment (closure : ClosureRef)
  | upvalueCount (closure : ClosureRef)
  | functionName (f : Value)
  | clone (f : Value)
  | redirect (closure : ClosureRef) (target : Option Value)
  | checkOwner (value : Value)
  | stats
  | objects (tables : Bool)
  | collect
  -- calls into the machine
  | call (f : Value) (arguments : List Value)
  | index (object key : Value)
  | assign (object key value : Value)
  -- retained values
  | retain (value : Value)
  | release (slot : Handle)
  | resolve (slot : Handle)
  | retained
  | hold (value : Value)
  | letGo (guard : Guard)
  | guardCount
  -- environments
  | environment (owner : EnvironmentOwner)
  | environmentCount
  | readShared (name : String)
  -- hooks
  | hook (target replacement : Value)
  | unhook (target : Value)
  | hookMetamethod (object : Value) (name : String) (replacement : Value)
  | unhookMetamethod (object : Value) (name : String)
  | isHooked (f : Value)
  | isOwned (f : Value)
  | hookCount
  | isRuntimeFunction (f : Value)
  -- reflection
  | constant (f : Value) (index : Int)
  | setConstant (f : Value) (index : Int) (value : Value)
  | constants (f : Value)
  | info (f : Value)
  | nested (f : Value) (index : Int) (activate : Bool)
  | digest (f : Value)
  | wrap (f : Value)
  -- connections
  | connect (signal : String) (callback : Value)
  | setEnabled (index : Nat) (enabled : Bool)
  | disconnect (index : Nat)
  | fire (index : Nat) (arguments : List Value)
  | fireSignal (signal : String) (arguments : List Value)
  | connectionsOf (signal : String)
  | connection (index : Nat)
  | connectionCount
  -- levels
  | level
  | setLevel (level : Int)
  | isTrusted
  | require (operation : String) (level : Nat)
  | contextCount
  -- inspection
  | filter (kind : ObjectKind) (criteria : Criteria)
  -- the host's own business
  | isAlive
  | report (name : String) (values : List Value)

/-- The type of the answer to a request. -/
@[reducible]
def Request.Answer : Request → Type
  | newTable => TableRef
  | assemble _ => PrototypeRef
  | instantiate .. | load .. => ClosureRef
  | contents _ => Table
  | rawGet .. | index .. | readShared _ | hookMetamethod .. | wrap _ => Value
  | rawSet .. | setMetatable .. | setReadOnly .. | redirect .. | checkOwner _ | assign ..
  | setLevel _ | require .. | letGo _ | report .. => Unit
  | metatable _ => Option TableRef
  | isReadOnly _ | release _ | unhook _ | unhookMetamethod .. | isHooked _ | isOwned _
  | isRuntimeFunction _ | setConstant .. | setEnabled .. | disconnect _ | fire .. | isTrusted
  | isAlive => Bool
  | closureEnvironment _ | environment _ => TableRef
  | upvalueCount _ | guardCount | environmentCount | hookCount | connect .. | fireSignal ..
  | connectionCount | level | contextCount => Nat
  | functionName _ | digest _ => Option String
  | clone _ | resolve _ | constant .. => Option Value
  | stats => HeapStats
  | objects _ | call .. | retained | filter .. => List Value
  | collect => Option Nat
  | retain _ => Handle
  | hold _ => Guard
  | hook .. => Option ClosureRef
  | constants _ => Option (List Value)
  | info _ => Option PrototypeInfo
  | nested .. => Option Nested
  | connectionsOf _ => List Nat
  | connection _ => Option ConnectionInfo

end HookMachine
