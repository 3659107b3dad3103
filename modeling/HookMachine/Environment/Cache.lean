import HookMachine.Guard
import HookMachine.Table

/-!
Environments made so far: the shared one, and one for each script and each module that asked.
-/

namespace HookMachine

/-- Whose environment is meant. -/
inductive EnvironmentOwner where
  | runtime
  | script (id : Value)
  | module (id : Value)

/-- The environments of a runtime, each kept alive for as long as the runtime lives. -/
structure EnvironmentCache where
  /-- The metatable of all environments, which reads through to the root globals. -/
  fallback : Option Guard := none
  shared : Option Guard := none
  scripts : List (Value × Guard) := []
  modules : List (Value × Guard) := []

namespace EnvironmentCache

variable (cache : EnvironmentCache)

/-- The environment of an owner, if it was made. -/
def find? : EnvironmentOwner → Option Guard
  | .runtime => cache.shared
  | .script id => (cache.scripts.find? fun entry => entry.1 == id).map (·.2)
  | .module id => (cache.modules.find? fun entry => entry.1 == id).map (·.2)

/-- Records the environment of an owner that had none. -/
def insert (guard : Guard) : EnvironmentOwner → EnvironmentCache
  | .runtime => { cache with shared := some guard }
  | .script id => { cache with scripts := cache.scripts ++ [(id, guard)] }
  | .module id => { cache with modules := cache.modules ++ [(id, guard)] }

/-- How many scripts and modules have an environment. -/
def size : Nat :=
  cache.scripts.length + cache.modules.length

/-- All guards of the cache, in the order in which they are given back together. -/
def guards : List Guard :=
  cache.fallback.toList ++ cache.shared.toList ++ cache.scripts.map (·.2)
    ++ cache.modules.map (·.2)

end EnvironmentCache
end HookMachine
