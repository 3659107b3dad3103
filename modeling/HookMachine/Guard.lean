import HookMachine.Value

/-!
Guards keep a value alive: each owns one slot among the retained values of a heap and gives
it back once.
-/

namespace HookMachine

/-- Ownership of one slot that retains a value. -/
structure Guard where
  slot : Handle
  value : Value
deriving Inhabited

end HookMachine
