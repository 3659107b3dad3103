import HookMachine.Proofs.Hook.Installation

/-!
What happens to hooks while code runs. A trace takes a run apart into the hooks that closures
were given or freed of, each one operation of the machine, and steps in between that touch
neither the registry of hooked closures nor any closure that exists.
-/

namespace HookMachine

/-- What happened to the hooks of closures. -/
inductive HookEvent where
  /-- A closure, with contents `original`, was hooked, and `copy` handed out. -/
  | installed (target : ClosureRef) (original : Closure) (replacement : Value)
    (copy : ClosureRef)
  | restored (target : ClosureRef)
  /-- A collection kept the closures that are in `kept`. -/
  | collected (kept : ClosureRef → Bool)

/-- A step leaves hooks alone: no entry changes, no closure changes, and closures that are new
have no redirect.
-/
structure Machine.Quiet (m after : Machine) : Prop where
  functions : after.hooks.functions = m.hooks.functions
  kept {handle c} : m.heap.closures.get handle = .ok c → after.heap.closures.get handle = .ok c
  fresh {handle c}
    : after.heap.closures.get handle = .ok c
      → m.heap.closures.get handle = .ok c ∨ c.redirect = none

/-- A run in which nothing is collected, with the hooks that it gave and took, the last first. -/
inductive Machine.Trace : Machine → List HookEvent → Machine → Prop
  | start (m) : Trace m [] m
  | quiet {m events middle after} (trace : Trace m events middle) (step : middle.Quiet after)
    : Trace m events after
  | installed {m events middle after target original replacement copy}
    (trace : Trace m events middle) (minted : middle.heap.Minted)
    (found : middle.heap.closures.get target.handle = .ok original)
    (ran : Hook.install (.closure target) replacement middle = .ok (some copy) after)
    : Trace m (.installed target original replacement copy :: events) after
  | restored {m events middle after target} (trace : Trace m events middle)
    (ran : Hook.restore (.closure target) middle = .ok true after)
    : Trace m (.restored target :: events) after

namespace Machine

variable {m middle after : Machine}

/-- Where closures and entries are the same, hooks were left alone. -/
theorem Quiet.of_eq (closures : after.heap.closures = m.heap.closures)
    (hooks : after.hooks.functions = m.hooks.functions)
    : m.Quiet after :=
  ⟨hooks, fun found => closures ▸ found, fun found => .inl (closures ▸ found)⟩

theorem Quiet.trace (step : m.Quiet after) : ∃ events, Trace m events after :=
  ⟨[], .quiet (.start m) step⟩

/-- Runs follow each other, by induction over the second. -/
theorem Trace.trans {events more : List HookEvent} (first : Trace m events middle)
    (second : Trace middle more after)
    : Trace m (more ++ events) after := by
  induction second with
  | start => exact first
  | quiet _ step ih => exact .quiet ih step
  | installed _ minted found ran ih => exact .installed ih minted found ran
  | restored _ ran ih => exact .restored ih ran

end Machine
end HookMachine
