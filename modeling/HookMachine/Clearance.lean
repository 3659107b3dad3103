import HookMachine.Machine

/-!
The capability level of the calling context, and operations that require one.
-/

namespace HookMachine.Clearance

/-- The level of the calling context, which counts as seen from now on. -/
def level : Vm Nat :=
  modifyGet fun m =>
    (m.identities.level m.context, { m with identities := m.identities.observe m.context })

/-- Sets the level of the calling context. -/
def setLevel (level : Int) : Action Unit := do
  if level < 0 ∨ maxLevel < level then
    Action.refuse (.levelOutOfRange level)
  modify fun m => { m with identities := m.identities.record m.context level.toNat }

/-- Whether the calling context is trusted. -/
def isTrusted : Vm Bool := do
  return decide (trustedLevel ≤ (← level))

/-- Refuses an operation to a context below a level. -/
def require (operation : String) (required : Nat) : Action Unit := do
  let actual ← level
  if actual < required then
    Action.refuse (.denied operation required actual)

/-- Refuses an operation to a context below the level for changing protected state. -/
def requirePrivilege (operation : String) : Action Unit := do
  require operation (← get).config.privilegedLevel

end HookMachine.Clearance
