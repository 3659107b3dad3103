import HookMachine.Machine

/-!
Hooking closures and metamethods. A hooked closure carries a redirect to its replacement, a
hooked metamethod slot holds it; what was there before stays callable as a copy.
-/

namespace HookMachine.Hook

/-- Refuses what cannot be called. -/
def checkCallable (value : Value) (subject : String) : Action Unit :=
  if value.isFunction then
    pure ()
  else
    Action.refuse (.needs subject .function value.kind)

/-- Hooks a closure and returns a copy that behaves as it did; a native cannot be hooked. A
hook that the closure already has is replaced.
-/
def install (target replacement : Value) : Action (Option ClosureRef) := do
  match target with
  | .native _ => return none
  | .closure ref =>
      checkCallable replacement "hook replacement"
      if replacement == target then
        Action.refuse .selfReplacement
      match ← Vm.clone target with
      | some (.closure copy) =>
          let targetGuard ← Vm.hold target
          let formerGuard ← Run.onHalt (Vm.hold (.closure copy)) (·.letGo targetGuard)
          let replacementGuard ←
            Run.onHalt (Vm.hold replacement) (·.letGoAll [formerGuard, targetGuard])
          let hook : FunctionHook :=
            { target := targetGuard, former := formerGuard, replacement := replacementGuard }
          Run.onHalt (Vm.setRedirect ref (some replacement)) (·.letGoAll hook.guards)
          let previous := (← get).hooks.function? ref
          modify fun m => { m with hooks := m.hooks.insertFunction ref hook }
          if let some previous := previous then
            modify (·.letGoAll previous.guards)
          return some copy
      | _ => Action.refuse .notDuplicable
  | other => Action.refuse (.needs "hook target" .function other.kind)

/-- Unhooks a closure; false if it had no hook. -/
def restore (target : Value) : Action Bool := do
  match target with
  | .closure ref =>
      match (← get).hooks.function? ref with
      | none => return false
      | some hook =>
          modify fun m => { m with hooks := m.hooks.eraseFunction ref }
          Run.onHalt (Vm.setRedirect ref none) (·.letGoAll hook.guards)
          modify (·.letGoAll hook.guards)
          return true
  | _ => return false

/-- Writes a field of a table whose protection is lifted for the write. -/
def writeUnprotected (ref : TableRef) (key value : Value) : Vm Unit := do
  let wasReadOnly := (← Vm.table ref).readOnly
  Vm.setReadOnly ref false
  let written ← Run.attempt (Vm.rawSet ref key value)
  Vm.setReadOnly ref wasReadOnly
  match written with
  | .ok () => pure ()
  | .error fault => Vm.fail fault

/-- A guard of what a metamethod slot held before its first hook, which is `existing` unless it
has a hook; such a hook is given up, with its other guards.
-/
def takePrevious (slot : MetamethodSlot) (existing : Value) : Action Guard := do
  match (← get).hooks.metamethod? slot with
  | some hook =>
      modify fun m => { m with hooks := m.hooks.eraseMetamethod slot }
      modify (·.letGoAll [hook.former, hook.replacement])
      return hook.previous
  | none => Vm.hold existing

/-- Hooks the metamethod of an object's metatable and returns a copy of what was there, or
that itself if it is no function. What was there before the first hook stays on record
however often the slot is hooked again.
-/
def installMetamethod (object : Value) (name : String) (replacement : Value) : Action Value := do
  checkCallable replacement "metamethod replacement"
  match ← Vm.metatable object with
  | none => Action.refuse (.noMetatable object.kind)
  | some metatable =>
      let existing ← Vm.rawGet metatable (.string name)
      if existing.isNil then
        Action.refuse (.noMetamethod name)
      let former := (← Vm.clone existing).getD existing
      let slot : MetamethodSlot := (metatable, name)
      let previous ← takePrevious slot existing
      let formerGuard ← Run.onHalt (Vm.hold former) (·.letGo previous)
      let replacementGuard ←
        Run.onHalt (Vm.hold replacement) (·.letGoAll [formerGuard, previous])
      let hook : MetamethodHook :=
        { previous, former := formerGuard, replacement := replacementGuard }
      Run.onHalt (writeUnprotected metatable (.string name) replacement)
        (·.letGoAll hook.guards)
      modify fun m => { m with hooks := m.hooks.insertMetamethod slot hook }
      return former

/-- Puts back what a hooked metamethod slot held before its first hook; false if it has none.
-/
def restoreMetamethod (object : Value) (name : String) : Action Bool := do
  match ← Vm.metatable object with
  | none => return false
  | some metatable =>
      let slot : MetamethodSlot := (metatable, name)
      match (← get).hooks.metamethod? slot with
      | none => return false
      | some hook =>
          modify fun m => { m with hooks := m.hooks.eraseMetamethod slot }
          Run.onHalt (writeUnprotected metatable (.string name) hook.previous.value)
            (·.letGoAll hook.guards)
          modify (·.letGoAll hook.guards)
          return true

end HookMachine.Hook
