import HookMachine.Value

/-!
What to look for among the objects of a heap.
-/

namespace HookMachine

/-- The kinds of objects that can be looked for. -/
inductive ObjectKind where
  | callable
  | container
deriving DecidableEq, Repr

/-- The kind with a name. -/
def ObjectKind.ofName? : String → Option ObjectKind
  | "function" | "callable" => some callable
  | "table" | "container" => some container
  | _ => none

/-- Criteria that an object has to meet together; one that is not set is always met. -/
structure Criteria where
  /-- The name of a function. -/
  name : Option String := none
  /-- How many captured variables a function has; natives have none. -/
  upvalues : Option Nat := none
  /-- How many constants a closure has; natives never meet it. -/
  constants : Option Nat := none
  /-- Leaves natives out. -/
  bytecodeOnly : Bool := false
  /-- Keys that a table has to have. -/
  keys : List Value := []
  /-- Values that a table has to have. -/
  values : List Value := []
  metatable : Option TableRef := none

end HookMachine
