import HookMachine.Clearance
import HookMachine.Connection.Firing
import HookMachine.Environment.Lookup
import HookMachine.Hook.Interception
import HookMachine.Inspection.Filter
import HookMachine.Reflection
import HookMachine.Script.Argument

/-!
The functions that scripts find in the root globals. Those that change protected state
require the privileged level before they look at their arguments.
-/

namespace HookMachine.Script

/-- A call from within the running one. -/
abbrev Nested := Value → List Value → Vm (List Value)

/-- What a function of the script surface does for the closure `caller`. -/
def run (nested : Nested) (caller : Option ClosureRef) (f : ScriptFunction)
    (arguments : List Value) : Action (List Value) := do
  let arg := argument arguments
  match f with
  | .getGlobalEnv => return [.table (← Environment.find .runtime)]
  | .getRootEnv => return [.table (← get).globals]
  | .getScriptEnv =>
      let id ← required arguments 0 "script id"
      return [.table (← Environment.find (.script id))]
  | .getModuleEnv =>
      let id ← required arguments 0 "module id"
      return [.table (← Environment.find (.module id))]
  | .installHook =>
      Clearance.requirePrivilege f.name
      let former ← Hook.install (arg 0) (arg 1)
      return [.orNil (former.map .closure)]
  | .restoreHook => return [.boolean (← Hook.restore (arg 0))]
  | .installMetamethodHook =>
      Clearance.requirePrivilege f.name
      let name ← string arguments 1 "metamethod name"
      return [← Hook.installMetamethod (arg 0) name (arg 2)]
  | .restoreMetamethodHook =>
      let name ← string arguments 1 "metamethod name"
      return [.boolean (← Hook.restoreMetamethod (arg 0) name)]
  | .setProtected =>
      Clearance.requirePrivilege f.name
      let ref ← table arguments 0 f.name
      Vm.setReadOnly ref (arg 1).isTruthy
      return []
  | .isProtected =>
      let ref ← table arguments 0 f.name
      return [.boolean (← Vm.table ref).readOnly]
  | .makeReadonly =>
      Clearance.requirePrivilege f.name
      let ref ← table arguments 0 f.name
      Vm.setReadOnly ref true
      return [.table ref]
  | .makeWriteable =>
      Clearance.requirePrivilege f.name
      let ref ← table arguments 0 f.name
      Vm.setReadOnly ref false
      return [.table ref]
  | .getRawMetatable => return [.orNil ((← Vm.metatable (arg 0)).map .table)]
  | .setRawMetatable =>
      Clearance.requirePrivilege f.name
      let ref ← table arguments 0 f.name
      match arg 1 with
      | .nil => Vm.setMetatable ref none
      | .table mt => Vm.setMetatable ref (some mt)
      | other => Action.refuse (.needs "metatable" .tableOrNil other.kind)
      return [.table ref]
  | .setIdentity =>
      Clearance.setLevel (← integer arguments 0 "identity level")
      return []
  | .getIdentity => return [.ofNat (← Clearance.level)]
  | .checkCaller => return [.boolean (← Clearance.isTrusted)]
  | .getConstant =>
      let position ← integer arguments 1 "constant index"
      return [.orNil (← Reflection.constant (arg 0) position)]
  | .setConstant =>
      Clearance.requirePrivilege f.name
      let position ← integer arguments 1 "constant index"
      return [.boolean (← Reflection.setConstant (arg 0) position (arg 2))]
  | .getConstants =>
      match ← Reflection.constants (arg 0) with
      | some constants => return [.table (← listTable constants)]
      | none => return [.nil]
  | .getNested =>
      let position ← integer arguments 1 "prototype index"
      match ← Reflection.nested caller (arg 0) position (arg 2).isTruthy with
      | some (.closure ref) => return [.closure ref]
      | some (.description info) => return [.table (← infoTable info)]
      | none => return [.nil]
  | .getProtoInfo =>
      match ← Reflection.info (arg 0) with
      | some info => return [.table (← infoTable info)]
      | none => return [.nil]
  | .functionHash => return [.orNil ((← Reflection.digest (arg 0)).map .string)]
  | .cloneFunction => return [.orNil (← Vm.clone (arg 0))]
  | .isLclosure =>
      match arg 0 with
      | .closure _ => return [.boolean true]
      | _ => return [.boolean false]
  | .isNative =>
      match arg 0 with
      | .native _ => return [.boolean true]
      | _ => return [.boolean false]
  | .newNativeClosure => return [← Reflection.wrap (arg 0)]
  | .isRuntimeClosure | .checkClosure =>
      return [.boolean (← Reflection.isRuntimeFunction (arg 0))]
  | .getRegistry =>
      let values := (← get).heap.retained.toList.map (·.2)
      return [.table (← listTable values)]
  | .registerConnection =>
      let signal ← string arguments 0 "signal name"
      let index ← Connection.register signal (arg 1)
      return [.table (← connectionTable index)]
  | .getConnections =>
      let signal ← string arguments 0 "signal name"
      let handles ←
        (ConnectionRegistry.ofSignal (← get).connections signal).mapM fun index =>
          return .table (← connectionTable index)
      return [.table (← listTable handles)]
  | .fireSignal =>
      let signal ← string arguments 0 "signal name"
      let rest := arguments.drop 1
      return [.ofNat (← Connection.fireSignal (nested · rest) signal)]
  | .enumerateObjects =>
      let objects := (← get).heap.objects (arg 0).isTruthy
      return [.table (← listTable objects)]
  | .filterObjects =>
      let name ← string arguments 0 "object kind"
      match ObjectKind.ofName? name with
      | none => Action.refuse (.unknownObjectKind name)
      | some kind =>
          let criteria ←
            match arg 1 with
            | .nil => pure {}
            | .table ref => criteria ref
            | other => Action.refuse (.needs "filter spec" .aTable other.kind)
          return [.table (← listTable (Inspection.filter (← get) kind criteria))]

/-- What a method of a connection handle does; the handle itself may be passed first. -/
def runMethod (nested : Nested) (m : ConnectionMethod) (index : Nat) (owner : TableRef)
    (arguments : List Value) : Vm (List Value) := do
  let arguments :=
    match arguments with
    | .table ref :: rest => if ref = owner then rest else arguments
    | _ => arguments
  match m with
  | .enable => return [.boolean (← Connection.setEnabled index true)]
  | .disable => return [.boolean (← Connection.setEnabled index false)]
  | .fire => return [.boolean (← Connection.fire (nested · arguments) index)]
  | .disconnect => return [.boolean (← Connection.disconnect index)]

/-- Puts script functions into the root globals. -/
def register : List ScriptFunction → Vm Unit
  | [] => pure ()
  | f :: rest => do
      let native ← Vm.newNative { name := f.name, body := .script f }
      Vm.rawSet (← get).globals (.string f.name) (.native native)
      register rest

end HookMachine.Script
