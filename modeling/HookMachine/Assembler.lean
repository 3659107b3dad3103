import HookMachine.Prototype

/-!
Assembling prototypes instruction by instruction. Constants are pooled: an equal constant
is used again instead of being added.
-/

namespace HookMachine

/-- A step of assembly: it extends the prototype under construction. -/
abbrev Assembler := StateM Prototype

namespace Assembler

/-- Adds a constant, or finds the equal one that is there, and returns its position. -/
def constant (value : Value) : Assembler Nat := do
  let p ← get
  match p.constants.findIdx? (· == value) with
  | some index => return index
  | none =>
      set { p with constants := p.constants.push value }
      return p.constants.size

/-- Adds a nested prototype and returns its position. -/
def nested (ref : PrototypeRef) : Assembler Nat := do
  let p ← get
  set { p with nested := p.nested.push ref }
  return p.nested.size

/-- Appends an instruction and returns its position. -/
def emit (i : Instruction) : Assembler Nat := do
  let p ← get
  set { p with code := p.code.push i }
  return p.code.size

/-- Appends an instruction with the fields A, B and C. -/
def abc (op : Opcode) (a : UInt8) (b c : UInt16) : Assembler Nat :=
  emit (.abc op a b c)

/-- Appends an instruction with the fields A and Bx. -/
def abx (op : Opcode) (a : UInt8) (bx : UInt32) : Assembler Nat :=
  emit (.abx op a bx)

/-- Appends an instruction with the field A and a signed offset. -/
def asbx (op : Opcode) (a : UInt8) (offset : Int) : Assembler Nat :=
  emit (.asbx op a offset)

/-- Emits the load of a value into register `a`. -/
def load (a : UInt8) (value : Value) : Assembler Nat := do
  let k ← constant value
  abx .loadK a k.toUInt32

/-- Emits the load of a global into register `a`. -/
def getGlobal (a : UInt8) (name : String) : Assembler Nat := do
  let k ← constant (.string name)
  abx .getGlobal a k.toUInt32

/-- Emits the assignment of register `a` to a global. -/
def setGlobal (a : UInt8) (name : String) : Assembler Nat := do
  let k ← constant (.string name)
  abx .setGlobal a k.toUInt32

/-- Emits a call of register `a` with the `arguments` registers after it, which keeps
`results` results.
-/
def call (a : UInt8) (arguments results : UInt16) : Assembler Nat :=
  abc .call a (arguments + 1) (results + 1)

/-- Emits the return of `count` registers from `a` on. -/
def ret (a : UInt8) (count : UInt16) : Assembler Nat :=
  abc .ret a (count + 1) 0

/-- The register window that the emitted code names: at least the parameters and two, at
most what the field of a prototype can hold.
-/
def window (p : Prototype) : Nat :=
  let named := p.code.foldl (fun most i => max most (i.a + 1)) 0
  min (max (max named p.parameters.toNat) 2) 255

/-- Sizes the window and ends the code with a return if its last instruction is none. -/
def finish : Assembler Unit := do
  modify fun p => { p with window := (window p).toUInt8 }
  let p ← get
  if (p.code.back?.map Instruction.opcode) ≠ some Opcode.ret.code then
    discard (ret 0 0)

/-- The prototype that `steps` assemble, starting from the declaration `start`. -/
def assemble (start : Prototype) (steps : Assembler Unit) : Prototype :=
  ((do steps; finish).run start).2

end Assembler
end HookMachine
