import HookMachine.Digest.Sha1
import HookMachine.Machine
import HookMachine.Text.Hex

/-!
Looking into functions: their constants, nested prototypes and a digest of their code.
Positions count from 1; a position outside, or a native, has nothing to show.
-/

namespace HookMachine.Reflection

/-- The prototype of a closure; a native has none. -/
def prototypeOf (f : Value) : Action (Option PrototypeRef) := do
  match f with
  | .closure ref => return some (← Vm.closure ref).prototype
  | .native _ => return none
  | other => Action.refuse (.notFunction other.kind)

/-- The place among `length` items of a position that counts from 1. -/
def slot? (position : Int) (length : Nat) : Option Nat :=
  if 1 ≤ position ∧ position ≤ length then some (position - 1).toNat else none

/-- A view of the prototype of a closure. -/
def inspect {α : Type} (f : Value) (view : Prototype → α) : Action (Option α) := do
  match ← prototypeOf f with
  | none => return none
  | some ref => return some (view (← Vm.prototype ref))

/-- All constants of a function. -/
def constants (f : Value) : Action (Option (List Value)) :=
  inspect f (·.constants.toList)

/-- The constant at a position. -/
def constant (f : Value) (position : Int) : Action (Option Value) := do
  let found ← inspect f fun p =>
    (slot? position p.constants.size).map fun i => p.constants.getD i .nil
  return found.join

/-- Overwrites the constant at a position in the prototype, for all closures that share it.
-/
def setConstant (f : Value) (position : Int) (value : Value) : Action Bool := do
  Vm.checkOwner value
  match ← prototypeOf f with
  | none => return false
  | some ref =>
      match slot? position (← Vm.prototype ref).constants.size with
      | none => return false
      | some i =>
          modify fun m => { m with prototypes := m.prototypes.setConstant ref i value }
          return true

/-- The description of a function's prototype. -/
def info (f : Value) : Action (Option PrototypeInfo) :=
  inspect f Prototype.info

/-- The nested prototype at a position: described, or as a closure in the environment of
`caller`, or of `f` itself without one. Its captured variables start as nil.
-/
def nested (caller : Option ClosureRef) (f : Value) (position : Int) (activate : Bool)
    : Action (Option Nested) := do
  match f with
  | .closure ref =>
      let p ← Vm.prototype (← Vm.closure ref).prototype
      match (slot? position p.nested.size).bind (p.nested[·]?) with
      | none => return none
      | some child =>
          if activate then
            let environment := (← Vm.closure (caller.getD ref)).environment
            return some (.closure (← Vm.instantiate child (some environment)))
          else
            return some (.description (← Vm.prototype child).info)
  | _ =>
      let _ ← prototypeOf f
      return none

/-- The little-endian bytes of a word. -/
def littleEndian (x : UInt32) : List UInt8 :=
  [x.toUInt8, (x >>> 8).toUInt8, (x >>> 16).toUInt8, (x >>> 24).toUInt8]

/-- The bytes that stand for the behaviour of a prototype: its source, line, counts and code,
but not its constants.
-/
def behaviourBytes (p : Prototype) : List UInt8 :=
  p.source.toUTF8.toList ++ littleEndian p.line
    ++ [p.upvalues, p.parameters, if p.variadic then 1 else 0]
    ++ p.code.toList.flatMap fun i => littleEndian i.word

/-- The digest of a closure's behaviour. -/
def digest (f : Value) : Action (Option String) :=
  inspect f fun p => Text.hex (Sha1.digest (behaviourBytes p))

/-- A native that passes calls on to a closure and keeps it alive; a native is its own
wrapper.
-/
def wrap (f : Value) : Action Value := do
  match f with
  | .native _ => return f
  | .closure _ =>
      let name := (← Vm.functionName f).getD "wrapped"
      let ref ← Vm.createNative { name, body := .wrapper f, bound := [f] }
      return .native ref
  | other => Action.refuse (.notFunction other.kind)

/-- Whether a function is a native or was put in play by a hook. -/
def isRuntimeFunction (f : Value) : Action Bool := do
  match f with
  | .native _ => return true
  | .closure _ => return (← get).hooks.owns f
  | other => Action.refuse (.notFunction other.kind)

end HookMachine.Reflection
