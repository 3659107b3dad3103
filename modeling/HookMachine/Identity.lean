import HookMachine.Config

/-!
Capability levels of execution contexts. A context that has not set a level holds the default
one, which is recorded when it is first looked at.
-/

namespace HookMachine

/-- Names an execution context. -/
structure ContextRef where
  index : Nat
deriving DecidableEq, Inhabited, Repr

/-- The level from which on a caller counts as trusted. -/
def trustedLevel : Nat := 2

/-- The recorded levels. -/
structure IdentityRegistry where
  levels : List (ContextRef × Nat) := []
  defaultLevel : Nat

namespace IdentityRegistry

/-- The empty registry; a default beyond the highest level is cut down to it. -/
def empty (defaultLevel : Nat) : IdentityRegistry :=
  { defaultLevel := min defaultLevel maxLevel }

/-- The level of a context. -/
def level (registry : IdentityRegistry) (context : ContextRef) : Nat :=
  (registry.levels.lookup context).getD registry.defaultLevel

/-- Records a level for a context in place of any other. -/
def record (registry : IdentityRegistry) (context : ContextRef) (level : Nat) : IdentityRegistry :=
  { registry with
    levels := registry.levels.filter (fun entry => entry.1 ≠ context) ++ [(context, level)] }

/-- Records the level that a context holds, so that it counts as seen. -/
def observe (registry : IdentityRegistry) (context : ContextRef) : IdentityRegistry :=
  match registry.levels.lookup context with
  | some _ => registry
  | none => registry.record context registry.defaultLevel

/-- How many contexts were seen. -/
def size (registry : IdentityRegistry) : Nat :=
  registry.levels.length

end IdentityRegistry
end HookMachine
