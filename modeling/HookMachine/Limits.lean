/-!
Limits on the calls of one runtime.
-/

namespace HookMachine

/-- How far calls may go before they fail. -/
structure Limits where
  /-- The deepest nesting of calls. -/
  callDepth : Nat := 200
  /-- How many instructions one entry from the host may execute; 0 stands for no limit. -/
  instructions : Nat := 10000000
  /-- How many redirects one call may follow. -/
  redirectDepth : Nat := 16
deriving DecidableEq, Repr

namespace Limits

/-- How many host entries may be nested in each other before a run counts as endless. -/
def entryNesting : Nat := 1000000

/-- How many instructions a run without an instruction limit may execute before it counts as
endless.
-/
def endless : Nat := 1000000000000

/-- Fuel for a call from the host. A call that starts no further entries from the host
needs no more than one unit for each instruction and one for each level of depth.
-/
def fuel (limits : Limits) : Nat :=
  let instructions := if limits.instructions = 0 then endless else limits.instructions
  (instructions + limits.callDepth + 3) * entryNesting

end Limits
end HookMachine
