import HookMachine.Script.Surface
import HookMachine.Execution.Field

/-!
Serving the requests of a host.
-/

namespace HookMachine

/-- Answers a request; calls into the machine go through `invoke`, each as an entry from the
host.
-/
def serve (invoke : Invoke) : (request : Request) → Action request.Answer
  | .newTable => Vm.newTable
  | .assemble prototype => Vm.addPrototype prototype
  | .instantiate prototype environment => Vm.instantiate prototype environment
  | .load owner prototype => Environment.load owner prototype
  | .contents ref => Vm.table ref
  | .rawGet ref key => Vm.rawGet ref key
  | .rawSet ref key value => Vm.rawSet ref key value
  | .metatable value => Vm.metatable value
  | .setMetatable ref metatable => Vm.setMetatable ref metatable
  | .isReadOnly ref => do return (← Vm.table ref).readOnly
  | .setReadOnly ref on => Vm.setReadOnly ref on
  | .closureEnvironment ref => do return (← Vm.closure ref).environment
  | .upvalueCount ref => do return (← Vm.closure ref).upvalues.size
  | .functionName f => Vm.functionName f
  | .clone f => Vm.clone f
  | .redirect ref target => Vm.setRedirect ref target
  | .checkOwner value => Vm.checkOwner value
  | .stats => do return (← get).heap.stats
  | .objects tables => do return (← get).heap.objects tables
  | .collect => modifyGet Machine.collect
  | .call f arguments => Vm.callFromHost invoke f arguments
  | .index object key => Vm.enter (Vm.index invoke object key 0)
  | .assign object key value => Vm.enter (Vm.assign invoke object key value 0)
  | .retain value => Vm.retain value
  | .release slot => Vm.release slot
  | .resolve slot => do return ((← get).heap.retained.get slot).toOption
  | .retained => do return (← get).heap.retained.toList.map (·.2)
  | .hold value => Vm.hold value
  | .letGo guard => modify (·.letGo guard)
  | .guardCount => do return (← get).guards
  | .environment owner => Environment.find owner
  | .environmentCount => do return (← get).environments.size
  | .readShared name => do
      let ref ← Environment.find .runtime
      Vm.enter (Vm.index invoke (.table ref) (.string name) 0)
  | .hook target replacement => Hook.install target replacement
  | .unhook target => Hook.restore target
  | .hookMetamethod object name replacement => Hook.installMetamethod object name replacement
  | .unhookMetamethod object name => Hook.restoreMetamethod object name
  | .isHooked f => do return (← get).hooks.isHooked f
  | .isOwned f => do return (← get).hooks.owns f
  | .hookCount => do return (← get).hooks.functions.length
  | .isRuntimeFunction f => Reflection.isRuntimeFunction f
  | .constant f position => Reflection.constant f position
  | .setConstant f position value => Reflection.setConstant f position value
  | .constants f => Reflection.constants f
  | .info f => Reflection.info f
  | .nested f position activate => Reflection.nested none f position activate
  | .digest f => Reflection.digest f
  | .wrap f => Reflection.wrap f
  | .connect signal callback => Connection.register signal callback
  | .setEnabled index enabled => Connection.setEnabled index enabled
  | .disconnect index => Connection.disconnect index
  | .fire index arguments => Connection.fire (Vm.callFromHost invoke · arguments) index
  | .fireSignal signal arguments => do
      Connection.fireSignal (Vm.callFromHost invoke · arguments) signal
  | .connectionsOf signal => do return ConnectionRegistry.ofSignal (← get).connections signal
  | .connection index => do return ConnectionRegistry.info? (← get).connections index
  | .connectionCount => do return (← get).connections.size
  | .level => Clearance.level
  | .setLevel level => Clearance.setLevel level
  | .isTrusted => Clearance.isTrusted
  | .require operation level => Clearance.require operation level
  | .contextCount => do return (← get).identities.size
  | .filter kind criteria => do return Inspection.filter (← get) kind criteria
  | .isAlive => do return (← get).alive
  | .report name values => modify fun m => { m with reports := m.reports.push (name, values) }

end HookMachine
