import HookMachine.Guard

/-!
Which closures and metamethods are hooked, and what their hooks keep alive.
-/

namespace HookMachine

/-- The hook of a closure. -/
structure FunctionHook where
  target : Guard
  /-- The copy that behaves as the target did when it was hooked. -/
  former : Guard
  replacement : Guard

/-- The guards of a hook, in the order in which they are given back. -/
def FunctionHook.guards (h : FunctionHook) : List Guard :=
  [h.target, h.former, h.replacement]

/-- The hook of a metamethod. -/
structure MetamethodHook where
  /-- What the slot held before it was first hooked. -/
  previous : Guard
  /-- A copy of what the slot held just before it was last hooked. -/
  former : Guard
  replacement : Guard

/-- The guards of a hook, in the order in which they are given back. -/
def MetamethodHook.guards (h : MetamethodHook) : List Guard :=
  [h.previous, h.former, h.replacement]

/-- A metamethod slot: a field of a metatable. -/
abbrev MetamethodSlot := TableRef × String

/-- All hooks of a runtime; no closure and no slot has two. -/
structure HookRegistry where
  functions : List (ClosureRef × FunctionHook) := []
  metamethods : List (MetamethodSlot × MetamethodHook) := []

namespace HookRegistry

variable (registry : HookRegistry)

/-- The hook of a closure. -/
def function? (closure : ClosureRef) : Option FunctionHook :=
  registry.functions.lookup closure

/-- The hook of a metamethod slot. -/
def metamethod? (slot : MetamethodSlot) : Option MetamethodHook :=
  registry.metamethods.lookup slot

/-- Drops the hook of a closure. -/
def eraseFunction (closure : ClosureRef) : HookRegistry :=
  { registry with functions := registry.functions.filter fun entry => entry.1 ≠ closure }

/-- Drops the hook of a metamethod slot. -/
def eraseMetamethod (slot : MetamethodSlot) : HookRegistry :=
  { registry with metamethods := registry.metamethods.filter fun entry => entry.1 ≠ slot }

/-- Gives a closure a hook in place of any other. -/
def insertFunction (closure : ClosureRef) (hook : FunctionHook) : HookRegistry :=
  let others := registry.eraseFunction closure
  { others with functions := others.functions ++ [(closure, hook)] }

/-- Gives a metamethod slot a hook in place of any other. -/
def insertMetamethod (slot : MetamethodSlot) (hook : MetamethodHook) : HookRegistry :=
  let others := registry.eraseMetamethod slot
  { others with metamethods := others.metamethods ++ [(slot, hook)] }

/-- Whether a closure is hooked. -/
def isHooked : Value → Bool
  | .closure closure => (registry.function? closure).isSome
  | _ => false

/-- Whether hooks put a function in play: it is hooked, or the copy that a hook made of one that is. -/
def owns : Value → Bool
  | .closure closure =>
      (registry.function? closure).isSome
        || registry.functions.any fun entry => entry.2.former.value == .closure closure
  | _ => false

/-- All guards that hooks hold, in the order in which they are given back together. -/
def guards : List Guard :=
  registry.functions.flatMap (·.2.guards) ++ registry.metamethods.flatMap (·.2.guards)

end HookRegistry
end HookMachine
