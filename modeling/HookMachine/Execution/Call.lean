import HookMachine.Execution.Instruction
import HookMachine.Service

/-!
Calls. Code runs on an explicit stack of activations, so calls between closures do not nest;
natives and metamethods call back through `invoke`. Fuel bounds both the nesting of such
calls and the number of instructions, and `Machine.invoke` supplies enough of it.
-/

namespace HookMachine.Vm

/-- Runs what a function of the host does; its calls go through `nested`, its requests enter
the machine anew.
-/
def runProgram (invoke : Invoke) (nested : Script.Nested) : HostProgram → Vm (List Value)
  | .finish results => pure results
  | .fail fault => fail fault
  | .call f arguments next => do
      let outcome ← Run.attempt (nested f arguments)
      runProgram invoke nested (next outcome)
  | .ask request next => do
      let answer ← Run.mapError Failure.toFault (Run.attempt (serve invoke request))
      runProgram invoke nested (next answer)
  | .create name body bound next => do
      let made : Action NativeRef := Vm.createNative { name, body := .host body, bound }
      let answer ← Run.mapError Failure.toFault (Run.attempt made)
      runProgram invoke nested (next answer)

/-- Calls a native for the closure `caller`. The functions of a runtime fail once it is
dropped.
-/
def callNative (invoke : Invoke) (ref : NativeRef) (arguments : List Value)
    (caller : Option ClosureRef) (depth : Nat) : Vm (List Value) := do
  let nested : Script.Nested := fun f arguments => invoke f arguments caller (depth + 1)
  match (← native ref).body with
  | .script f =>
      unless (← get).alive do
        fail (.dropped (some f.name))
      (Script.run nested caller f arguments).toVm
  | .method m index owner =>
      unless (← get).alive do
        fail (.dropped none)
      Script.runMethod nested m index owner arguments
  | .wrapper inner => nested inner arguments
  | .host f => runProgram invoke nested (f caller arguments)

/-- The value that a call of `f` reaches by redirects, of which it follows at most `limit`. -/
def followRedirects : Nat → Value → Vm Value
  | limit, .closure ref => do
      match (← closure ref).redirect with
      | none => return .closure ref
      | some next =>
          match limit with
          | 0 => fail .redirectChain
          | limit + 1 => followRedirects limit next
  | _, f => pure f

/-- The value that a call of `f` reaches. -/
def resolve (f : Value) : Vm Value := do
  followRedirects (← get).config.limits.redirectDepth f

/-- Calls a value that is no closure: a native, or a table with a function to call. -/
def callOther (invoke : Invoke) (target : Value) (arguments : List Value)
    (caller : Option ClosureRef) (depth : Nat) : Vm (List Value) := do
  match target with
  | .native ref => callNative invoke ref arguments caller depth
  | .table _ =>
      let handler ← metamethod target "__call"
      unless handler.isFunction do
        fail (.notCallable .table)
      invoke handler (target :: arguments) caller (depth + 1)
  | other => fail (.notCallable other.kind)

/-- Fails beyond the deepest nesting. -/
def checkDepth (depth : Nat) : Vm Unit := do
  if (← get).config.limits.callDepth < depth then
    fail .stackOverflow

/-- Executes one instruction of the activation on top of the stack: what follows is a stack
again, or results that leave it.
-/
def advance (invoke : Invoke) (top : Layer) (callers : List Layer)
    : Vm (List Value ⊕ (Layer × List Layer)) := do
  match ← step invoke top.frame with
  | .next frame => return .inr ({ top with frame }, callers)
  | .finish results => return unwind results top.resume callers
  | .call frame f arguments resume =>
      let depth := frame.depth + 1
      let callers := { top with frame } :: callers
      checkDepth depth
      match ← resolve f with
      | .closure callee => return .inr (⟨← openFrame callee arguments depth, resume⟩, callers)
      | target =>
          let results ← callOther invoke target arguments (some frame.closure) depth
          return unwind results resume callers

/-- Runs a stack until results leave it. -/
def runFrames (invoke : Invoke) : Nat → Layer → List Layer → Vm (List Value)
  | 0, _, _ => exhausted
  | fuel + 1, top, callers => do
      match ← advance invoke top callers with
      | .inl results => return results
      | .inr (top, callers) => runFrames invoke fuel top callers

/-- Calls a value for the closure `caller` at a depth. -/
def call : Nat → Invoke
  | 0, _, _, _, _ => exhausted
  | fuel + 1, f, arguments, caller, depth => do
      checkDepth depth
      match ← resolve f with
      | .closure ref =>
          let frame ← openFrame ref arguments depth
          runFrames (call fuel) fuel ⟨frame, .forward⟩ []
      | target => callOther (call fuel) target arguments caller depth

end HookMachine.Vm

namespace HookMachine

/-- Calls as the limits of the runtime allow. -/
def Machine.invoke (m : Machine) : Invoke :=
  Vm.call m.config.limits.fuel

/-- Answers a request of the host. -/
def Action.request (request : Request) : Action request.Answer := do
  serve (← get).invoke request

end HookMachine
