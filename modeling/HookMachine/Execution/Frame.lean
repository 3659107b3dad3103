import HookMachine.Execution.Invoke

/-!
Activations of closures: their registers, extra arguments and captured cells; and the stack
of those that run, each with where its results go.
-/

namespace HookMachine

/-- Where the results of an activation go. -/
inductive Resume where
  /-- Into registers of its caller from `a` on; `c` counts them as in a call. -/
  | store (a c : Nat)
  /-- They become the results of its caller. -/
  | forward
deriving DecidableEq, Repr

/-- One activation of a closure. -/
structure Frame where
  closure : ClosureRef
  prototype : PrototypeRef
  code : Array Instruction
  upvalues : Array CellRef
  environment : TableRef
  registers : Array Value
  /-- Arguments beyond the parameters. -/
  extra : List Value
  /-- One past the last register that an open-ended list of values filled. -/
  top : Nat := 0
  /-- The next instruction. -/
  pc : Nat := 0
  depth : Nat
  /-- The cells made for registers of this activation. -/
  captured : List (Nat × CellRef) := []

/-- One layer of the stack: an activation and where its results go. -/
structure Layer where
  frame : Frame
  resume : Resume

/-- Exactly `n` values: the first of `values`, filled up with nil. -/
def fit (n : Nat) (values : List Value) : List Value :=
  values.take n ++ List.replicate (n - values.length) .nil

namespace Frame

/-- The value of a register; those never written hold nil. -/
def read (frame : Frame) (r : Nat) : Value :=
  frame.registers.getD r .nil

/-- Writes a register; the registers grow as needed. -/
def write (frame : Frame) (r : Nat) (value : Value) : Frame :=
  if r < frame.registers.size then
    { frame with registers := frame.registers.setIfInBounds r value }
  else
    let gap := Array.replicate (r - frame.registers.size) Value.nil
    { frame with registers := (frame.registers ++ gap).push value }

/-- Writes values to the registers from `r` on. -/
def writeAll (frame : Frame) (r : Nat) : List Value → Frame
  | [] => frame
  | value :: rest => (frame.write r value).writeAll (r + 1) rest

/-- Skips the next instruction if `condition` holds. -/
def skipIf (frame : Frame) (condition : Bool) : Frame :=
  if condition then { frame with pc := frame.pc + 1 } else frame

/-- The values of the registers from `start` on: as many as a B or C field that counts from
one says, or up to the top for zero.
-/
def span (frame : Frame) (start count : Nat) : List Value :=
  let stop := if count = 0 then max frame.top start else start + count - 1
  (List.range' start (stop - start)).map frame.read

/-- Takes the results of a call into the registers from `a` on: all of them for `c = 0`, else
exactly `c - 1`.
-/
def takeResults (frame : Frame) (a c : Nat) (results : List Value) : Frame :=
  if c = 0 then
    { frame.writeAll a results with top := a + results.length }
  else
    frame.writeAll a (fit (c - 1) results)

end Frame

/-- Delivers the results of an activation that resumes its caller by `resume`: to the nearest
caller that stores them, or out of the whole stack if there is none.
-/
def unwind (results : List Value) : Resume → List Layer → List Value ⊕ (Layer × List Layer)
  | _, [] => .inl results
  | .store a c, caller :: rest =>
      .inr ({ caller with frame := caller.frame.takeResults a c results }, rest)
  | .forward, caller :: rest => unwind results caller.resume rest

namespace Vm

/-- Opens an activation of a closure: parameters get the first arguments, and a variadic
function keeps the others.
-/
def openFrame (ref : ClosureRef) (arguments : List Value) (depth : Nat) : Vm Frame := do
  let c ← closure ref
  let p ← prototype c.prototype
  let parameters := p.parameters.toNat
  let window := max (max p.window.toNat parameters) 1
  return {
    closure := ref
    prototype := c.prototype
    code := p.code
    upvalues := c.upvalues
    environment := c.environment
    registers := (fit window (arguments.take parameters)).toArray
    extra := if p.variadic then arguments.drop parameters else []
    depth }

end Vm
end HookMachine
