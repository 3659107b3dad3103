import HookMachine.Execution.Invoke

/-!
Making, firing and ending connections. A callback that fails does so silently.
-/

namespace HookMachine.Connection

/-- Connects a callback to a signal and returns the index of the connection. -/
def register (signal : String) (callback : Value) : Action Nat := do
  unless callback.isFunction do
    Action.refuse (.needs "connection callback" .function callback.kind)
  let guard ← Vm.hold callback
  modifyGet fun m =>
    (m.connections.size,
      { m with connections := m.connections.push { signal, callback := some guard } })

/-- Enables or disables a connection; false unless it is connected. -/
def setEnabled (index : Nat) (enabled : Bool) : Vm Bool :=
  modifyGet fun m =>
    (ConnectionRegistry.isConnected m.connections index,
      { m with connections := ConnectionRegistry.setEnabled m.connections index enabled })

/-- Ends a connection and gives up its callback; false unless it was connected. -/
def disconnect (index : Nat) : Vm Bool :=
  modifyGet fun m =>
    let guard := m.connections[index]? >>= (·.callback)
    let m := { m with connections := ConnectionRegistry.disconnect m.connections index }
    match guard with
    | some guard => (true, m.letGo guard)
    | none => (false, m)

/-- Runs the callback of a connection by `run` if it is enabled, and says whether it was. -/
def fire (run : Value → Vm (List Value)) (index : Nat) : Vm Bool := do
  match ConnectionRegistry.callback? (← get).connections index with
  | none => return false
  | some callback =>
      let _ ← Run.attempt (run callback)
      return true

/-- Fires connections one after the other and counts those that ran. -/
def fireAll (run : Value → Vm (List Value)) : List Nat → Vm Nat
  | [] => pure 0
  | index :: rest => do
      let ran ← fire run index
      let others ← fireAll run rest
      return others + if ran then 1 else 0

/-- Fires every connection that a signal has now. -/
def fireSignal (run : Value → Vm (List Value)) (signal : String) : Vm Nat := do
  fireAll run (ConnectionRegistry.ofSignal (← get).connections signal)

end HookMachine.Connection
