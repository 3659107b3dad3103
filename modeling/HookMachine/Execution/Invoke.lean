import HookMachine.Machine

/-!
How the operations of a runtime reach back into running code: through a call they are given,
so that none of them is recursive itself.
-/

namespace HookMachine

/-- A call of a function with arguments, for a closure or for nobody, at a depth. -/
abbrev Invoke := Value → List Value → Option ClosureRef → Nat → Vm (List Value)

namespace Vm

/-- Runs an entry from the host: it counts as active until it returns, in whatever way, and
has an instruction count of its own.
-/
def enter {α : Type} (x : Vm α) : Vm α := fun m =>
  match x m.enter with
  | .ok a after => .ok a (after.leave m.steps)
  | .error halt after => .error halt (after.leave m.steps)

/-- A call from the host. -/
def callFromHost (invoke : Invoke) (f : Value) (arguments : List Value) : Vm (List Value) :=
  enter (invoke f arguments none 0)

/-- Stops because the fuel ran out. -/
def exhausted {α : Type} : Vm α :=
  throw .outOfFuel

end Vm
end HookMachine
