import HookMachine.Request

/-!
Functions that are not bytecode: those that scripts find in the root globals, the methods of
connection handles, wrappers around closures, and functions of the host.
-/

namespace HookMachine

/-- What a function of the host does: it makes requests and calls, goes on with what comes
back, and ends with results or a fault.
-/
inductive HostProgram where
  | finish (results : List Value)
  | fail (fault : Fault)
  /-- Calls a function within the running call, sharing its depth and instructions. -/
  | call (f : Value) (arguments : List Value) (next : Except Fault (List Value) → HostProgram)
  | ask (request : Request) (next : Except Failure request.Answer → HostProgram)
  /-- Makes a native out of another function of the host; it keeps `bound` alive. -/
  | create (name : String) (body : Option ClosureRef → List Value → HostProgram)
      (bound : List Value) (next : Except Failure NativeRef → HostProgram)

/-- A function of the host, given the closure that called it and the arguments. -/
abbrev HostFunction := Option ClosureRef → List Value → HostProgram

/-- The functions that scripts find in the root globals, in the order of their natives. -/
inductive ScriptFunction where
  | getGlobalEnv
  | getRootEnv
  | getScriptEnv
  | getModuleEnv
  | installHook
  | restoreHook
  | installMetamethodHook
  | restoreMetamethodHook
  | setProtected
  | isProtected
  | makeReadonly
  | makeWriteable
  | getRawMetatable
  | setRawMetatable
  | setIdentity
  | getIdentity
  | checkCaller
  | getConstant
  | setConstant
  | getConstants
  | getNested
  | getProtoInfo
  | functionHash
  | cloneFunction
  | isLclosure
  | isNative
  | newNativeClosure
  | isRuntimeClosure
  | checkClosure
  | getRegistry
  | registerConnection
  | getConnections
  | fireSignal
  | enumerateObjects
  | filterObjects
deriving DecidableEq, Repr

namespace ScriptFunction

/-- All of them, in the order of their natives. -/
def all : List ScriptFunction :=
  [getGlobalEnv, getRootEnv, getScriptEnv, getModuleEnv, installHook, restoreHook,
    installMetamethodHook, restoreMetamethodHook, setProtected, isProtected, makeReadonly,
    makeWriteable, getRawMetatable, setRawMetatable, setIdentity, getIdentity, checkCaller,
    getConstant, setConstant, getConstants, getNested, getProtoInfo, functionHash, cloneFunction,
    isLclosure, isNative, newNativeClosure, isRuntimeClosure, checkClosure, getRegistry,
    registerConnection, getConnections, fireSignal, enumerateObjects, filterObjects]

/-- The name of the global that holds the function. -/
def name : ScriptFunction → String
  | getGlobalEnv => "get_global_env"
  | getRootEnv => "get_root_env"
  | getScriptEnv => "get_script_env"
  | getModuleEnv => "get_module_env"
  | installHook => "install_hook"
  | restoreHook => "restore_hook"
  | installMetamethodHook => "install_metamethod_hook"
  | restoreMetamethodHook => "restore_metamethod_hook"
  | setProtected => "set_protected"
  | isProtected => "is_protected"
  | makeReadonly => "make_readonly"
  | makeWriteable => "make_writeable"
  | getRawMetatable => "get_raw_metatable"
  | setRawMetatable => "set_raw_metatable"
  | setIdentity => "set_identity"
  | getIdentity => "get_identity"
  | checkCaller => "check_caller"
  | getConstant => "get_constant"
  | setConstant => "set_constant"
  | getConstants => "get_constants"
  | getNested => "get_nested"
  | getProtoInfo => "get_proto_info"
  | functionHash => "function_hash"
  | cloneFunction => "clone_function"
  | isLclosure => "is_lclosure"
  | isNative => "is_native"
  | newNativeClosure => "new_native_closure"
  | isRuntimeClosure => "is_runtime_closure"
  | checkClosure => "check_closure"
  | getRegistry => "get_registry"
  | registerConnection => "register_connection"
  | getConnections => "get_connections"
  | fireSignal => "fire_signal"
  | enumerateObjects => "enumerate_objects"
  | filterObjects => "filter_objects"

end ScriptFunction

/-- The methods of a connection handle. -/
inductive ConnectionMethod where
  | enable
  | disable
  | fire
  | disconnect
deriving DecidableEq, Repr

namespace ConnectionMethod

/-- All methods, in the order of their natives. -/
def all : List ConnectionMethod :=
  [enable, disable, fire, disconnect]

/-- The field of the handle that holds the method. -/
def name : ConnectionMethod → String
  | enable => "Enable"
  | disable => "Disable"
  | fire => "Fire"
  | disconnect => "Disconnect"

end ConnectionMethod

/-- What a native does when it is called. -/
inductive NativeBody where
  | script (f : ScriptFunction)
  /-- A method of the connection with this index, found in the table `owner`. -/
  | method (m : ConnectionMethod) (index : Nat) (owner : TableRef)
  /-- Passes the call on to `inner`. -/
  | wrapper (inner : Value)
  | host (f : HostFunction)

/-- A native: its name, what it does, and the values it keeps alive. -/
structure Native where
  name : String
  body : NativeBody
  bound : List Value := []
  /-- Set while a collection runs that has reached the native. -/
  marked : Bool := false

end HookMachine
