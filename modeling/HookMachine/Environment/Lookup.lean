import HookMachine.Machine

/-!
Environments: tables that read through to the root globals and keep what is written to them.
-/

namespace HookMachine.Environment

/-- The table that a guard of the cache holds. -/
def tableOf (guard : Guard) : Action TableRef :=
  match guard.value with
  | .table ref => pure ref
  | _ => Action.refuse .notAnEnvironment

/-- The metatable shared by all environments. It is protected, since a write to it would
reach them all.
-/
def fallback : Action TableRef := do
  match (← get).environments.fallback with
  | some guard => tableOf guard
  | none =>
      let ref ← Vm.newTable
      let guard ← Vm.hold (.table ref)
      let globals := (← get).globals
      let shut : Action Unit := do
        Vm.rawSet ref (.string "__index") (.table globals)
        Vm.setReadOnly ref true
      Run.onHalt shut (·.letGo guard)
      modify fun m => { m with environments.fallback := some guard }
      return ref

/-- A new environment. -/
def create : Action Guard := do
  let metatable ← fallback
  let ref ← Vm.newTable
  let guard ← Vm.hold (.table ref)
  Run.onHalt (Vm.setMetatable ref (some metatable)) (·.letGo guard)
  return guard

/-- The environment on record for an owner, which is made when it is first asked for. -/
def recorded (owner : EnvironmentOwner) : Action TableRef := do
  match (← get).environments.find? owner with
  | some guard => tableOf guard
  | none =>
      let guard ← create
      modify fun m => { m with environments := m.environments.insert guard owner }
      tableOf guard

/-- The environment of an owner, after checking that it belongs to the heap. -/
def find (owner : EnvironmentOwner) : Action TableRef := do
  match owner with
  | .runtime => pure ()
  | .script id | .module id => Vm.checkOwner id
  recorded owner

/-- A closure over a prototype that runs in the environment of an owner. -/
def load (owner : EnvironmentOwner) (prototype : PrototypeRef) : Action ClosureRef := do
  let environment ← find owner
  Vm.instantiate prototype (some environment)

end HookMachine.Environment
