import HookMachine.Guard

/-!
Connections of signals to callbacks, in the order in which they were made. A disconnected
one keeps its place, so that the indices of the others stay valid.
-/

namespace HookMachine

/-- One connection. -/
structure Connection where
  signal : String
  /-- Nothing once it is disconnected. -/
  callback : Option Guard
  enabled : Bool := true

/-- What can be said about a connection. -/
structure ConnectionInfo where
  index : Nat
  signal : String
  enabled : Bool
  connected : Bool
deriving DecidableEq, Repr

/-- The connections of a runtime. -/
abbrev ConnectionRegistry := Array Connection

namespace ConnectionRegistry

variable (registry : ConnectionRegistry)

/-- The callback that firing a connection runs. -/
def callback? (index : Nat) : Option Value := do
  let connection ← registry[index]?
  let guard ← connection.callback
  if connection.enabled then some guard.value else none

/-- Whether there is such a connection and it is connected. -/
def isConnected (index : Nat) : Bool :=
  match registry[index]? with
  | some connection => connection.callback.isSome
  | none => false

/-- Enables or disables a connection that is connected. -/
def setEnabled (index : Nat) (enabled : Bool) : ConnectionRegistry :=
  registry.modify index fun connection =>
    if connection.callback.isSome then { connection with enabled } else connection

/-- Disconnects a connection for good. -/
def disconnect (index : Nat) : ConnectionRegistry :=
  registry.modify index fun connection => { connection with callback := none, enabled := false }

/-- The connected connections of a signal, in ascending order. -/
def ofSignal (signal : String) : List Nat :=
  (List.range registry.size).filter fun index =>
    match registry[index]? with
    | some connection => connection.callback.isSome && connection.signal == signal
    | none => false

/-- The description of a connection. -/
def info? (index : Nat) : Option ConnectionInfo :=
  registry[index]?.map fun connection =>
    { index, signal := connection.signal, enabled := connection.enabled
      connected := connection.callback.isSome }

/-- The guards that connections hold. -/
def guards : List Guard :=
  registry.toList.filterMap (·.callback)

end ConnectionRegistry
end HookMachine
