import HookMachine.Assembler
import HookMachine.Host

/-!
The self-check: a runtime is made and hooks, constants and connections are tried on it.
-/

namespace HookMachine.SelfCheck

/-- A function that multiplies its argument by ten. -/
def scale : Prototype :=
  Assembler.assemble { name := some "scale", parameters := 1, line := 1 } do
    let k ← Assembler.constant (.number 10)
    discard (Assembler.abc .mul 1 0 (constantOperand k))
    discard (Assembler.ret 1 1)

/-- The name under which passed checks are reported. -/
def passed : String := "check"

/-- The name of the callback that the check connects, under which it reports its calls. -/
def ping : String := "on_ping"

/-- Reports a check that came out well and fails with one that did not. -/
def check (name : String) (ok : Bool) : Action Unit := do
  if ok then
    Action.request (.report passed [.string name])
  else
    Action.refuse (.checkFailed name)

/-- Whether calling a function with 4 gives exactly one number. -/
def scalesTo (f : Value) (expected : Float) : Action Bool := do
  let results ← Action.request (.call f [.number 4])
  return results == [.number expected]

/-- How many arguments the connected callback was given so far. -/
def pinged : Action Nat := do
  let count (n : Nat) (report : String × List Value) : Nat :=
    if report.1 == ping then n + report.2.length else n
  return (← get).reports.toList.foldl count 0

/-- All checks, on a function made of the prototype `scale`. -/
def checks (prototype : PrototypeRef) : Action Unit := do
  let ref ← Action.request (.load .runtime prototype)
  let scale := Value.closure ref
  check "call" (← scalesTo scale 40)
  let replacement ← Vm.createNative
    { name := "replacement", body := .host fun _ _ => .finish [.number (-1)] }
  match ← Action.request (.hook scale (.native replacement)) with
  | none => Action.refuse .notDuplicable
  | some former =>
      check "hook redirects" (← scalesTo scale (-1))
      check "original keeps behaviour" (← scalesTo (.closure former) 40)
  check "restore" (← Action.request (.unhook scale))
  check "restored behaviour" (← scalesTo scale 40)
  check "constant write" (← Action.request (.setConstant scale 1 (.number 100)))
  check "constant visible" (← scalesTo scale 400)
  let callback ← Vm.createNative
    { name := ping
      body := .host fun _ arguments => .ask (.report ping arguments) fun _ => .finish [] }
  let index ← Action.request (.connect "Ping" (.native callback))
  discard (Action.request (.fire index [.number 1, .number 2]))
  discard (Action.request (.setEnabled index false))
  discard (Action.request (.fire index [.number 3]))
  check "connection fire" ((← pinged) == 2)

/-- The outcome of the self-check, and the names of the checks that were passed. -/
structure Outcome where
  passed : List String
  result : Except (Halt Failure) Unit

/-- Runs the self-check on a new runtime. -/
def run (config : Config) : Outcome :=
  let (prototype, host) := ({} : Host).addPrototype scale
  let (runtime, host) := host.addRuntime config
  let (result, host) := host.run runtime ⟨0⟩ (checks prototype)
  let reports := host.runtimes.toList.flatMap fun m => m.reports.toList
  { passed :=
      reports.filterMap fun report =>
        if report.1 == passed then (report.2.head?.bind Value.toString?) else none
    result := result.getD (.ok ()) }

end HookMachine.SelfCheck
