import HookMachine.Execution.Field
import HookMachine.Execution.Frame

/-!
What single instructions do to the activation that executes them.
-/

namespace HookMachine.Vm

/-- How many fields one unit of the C field of a list instruction stands for. -/
def listBatch : Nat := 50

/-- Fails at the instruction before the next one. -/
def malformed {α : Type} (frame : Frame) (why : Malformation) : Vm α :=
  fail (.malformed (frame.pc - 1) why)

/-- Constant `k` of the activation's prototype as it is now. -/
def constant (frame : Frame) (k : Nat) : Vm Value := do
  match (← prototype frame.prototype).constants[k]? with
  | some value => return value
  | none => malformed frame (.noConstant k)

/-- The operand in a B or C field: a constant or a register. -/
def operand (frame : Frame) (field : Nat) : Vm Value :=
  if field &&& 0x100 ≠ 0 then constant frame (field &&& 0xff) else pure (frame.read field)

/-- The cell of a captured variable. -/
def upvalue (frame : Frame) (index : Nat) : Vm CellRef :=
  match frame.upvalues[index]? with
  | some cell => pure cell
  | none => malformed frame (.noUpvalue index)

/-- The number in a register of a loop. -/
def loopNumber (frame : Frame) (r : Nat) : Vm Float :=
  let value := frame.read r
  match value.toNumber? with
  | some x => pure x
  | none => fail (.loopValue value.kind)

/-- The number that an operand of an arithmetic operation stands for. -/
def arithmeticNumber (value : Value) : Vm Float :=
  match value.toNumber? with
  | some x => pure x
  | none => fail (.misuse .arithmetic value.kind)

/-- The result of an arithmetic operation on two numbers. -/
def arithmetic (op : Opcode) (a b : Float) : Float :=
  match op with
  | .add => a + b
  | .sub => a - b
  | .mul => a * b
  | .div => a / b
  | .mod => Number.modulo a b
  | _ => Float.pow a b

/-- Orders two numbers or two strings; strings by their code points. -/
def order (left right : Value) : Vm Ordering :=
  match left, right with
  | .number a, .number b =>
      if a < b then pure .lt
      else if a == b then pure .eq
      else if b < a then pure .gt
      else fail .nanComparison
  | .string a, .string b => pure (compare a b)
  | _, _ => fail (.incomparable left.kind right.kind)

/-- Moves the next instruction by a signed offset. -/
def jump (frame : Frame) (offset : Int) : Vm Frame :=
  let target := (frame.pc : Int) + offset
  if target < 0 then
    fail (.malformed frame.pc .jumpBeforeStart)
  else
    pure { frame with pc := target.toNat }

/-- The text of a value that can be concatenated. -/
def concatenable (value : Value) : Vm String :=
  match value with
  | .string _ | .number _ => pure value.text
  | other => fail (.misuse .concatenation other.kind)

/-- The length of a string in bytes, or of the array part of a table. -/
def length (value : Value) : Vm Nat := do
  match value with
  | .string s => return s.utf8ByteSize
  | .table ref => return (← table ref).length
  | other => fail (.misuse .length other.kind)

/-- Stores values under consecutive integers after `start`. -/
def storeList (t : Table) (start : Nat) : List Value → Table
  | [] => t
  | value :: rest => storeList (t.set (.ofNat (start + 1)) value) (start + 1) rest

/-- The cell that an upvalue descriptor names: that of a register of this activation, made
when the register is first captured, or one of the closure's own.
-/
def capture (frame : Frame) (descriptor : Instruction) : Vm (Frame × CellRef) := do
  match descriptor.operation? with
  | some .move =>
      match frame.captured.lookup descriptor.b with
      | some cell => return (frame, cell)
      | none =>
          let cell ← newCell (frame.read descriptor.b)
          return ({ frame with captured := (descriptor.b, cell) :: frame.captured }, cell)
  | some .getUpval => return (frame, ← upvalue frame descriptor.b)
  | _ => malformed frame .badDescriptor

/-- The cells that the next `count` words describe. -/
def captures : Nat → Frame → Vm (Frame × List CellRef)
  | 0, frame => return (frame, [])
  | count + 1, frame => do
      match frame.code[frame.pc]? with
      | none => fail (.malformed frame.pc .missingDescriptor)
      | some descriptor =>
          let (frame, cell) ← capture { frame with pc := frame.pc + 1 } descriptor
          let (frame, cells) ← captures count frame
          return (frame, cell :: cells)

/-- Makes a closure over a nested prototype. -/
def close (frame : Frame) (i : Instruction) : Vm Frame := do
  match (← prototype frame.prototype).nested[i.bx]? with
  | none => malformed frame (.noPrototype i.bx)
  | some nested =>
      let count := (← prototype nested).upvalues.toNat
      let (frame, cells) ← captures count frame
      let ref ← newClosure
        { prototype := nested, upvalues := cells.toArray, environment := frame.environment }
      return frame.write i.a (.closure ref)

/-- Fills a table from the registers after the one that holds it. -/
def setList (frame : Frame) (i : Instruction) : Vm Frame := do
  match frame.read i.a with
  | .table ref =>
      let values := frame.span (i.a + 1) (i.b + 1)
      if (← table ref).readOnly then
        fail .readOnly
      updateTable ref fun t => storeList t ((i.c - 1) * listBatch) values
      return frame
  | _ => fail .listTarget

/-- Copies extra arguments into registers: all of them, or exactly as many as B says. -/
def spread (frame : Frame) (i : Instruction) : Frame :=
  if i.b = 0 then
    { frame.writeAll i.a frame.extra with top := i.a + frame.extra.length }
  else
    frame.writeAll i.a (fit (i.b - 1) frame.extra)

/-- Enters a numeric loop: the index starts one step before its first value. -/
def loopEnter (frame : Frame) (i : Instruction) : Vm Frame := do
  let start ← loopNumber frame i.a
  let step ← loopNumber frame (i.a + 2)
  let _ ← loopNumber frame (i.a + 1)
  jump (frame.write i.a (.number (start - step))) i.offset

/-- Advances a numeric loop, and goes back to its body unless it is past its limit. -/
def loopNext (frame : Frame) (i : Instruction) : Vm Frame := do
  let step ← loopNumber frame (i.a + 2)
  let index := (← loopNumber frame i.a) + step
  let limit ← loopNumber frame (i.a + 1)
  let frame := frame.write i.a (.number index)
  if (if 0 < step then index ≤ limit else limit ≤ index) then
    jump (frame.write (i.a + 3) (.number index)) i.offset
  else
    return frame

/-- Executes an instruction that neither calls nor returns. -/
def execute (invoke : Invoke) (frame : Frame) (op : Opcode) (i : Instruction) : Vm Frame := do
  match op with
  | .move => return frame.write i.a (frame.read i.b)
  | .loadK => return frame.write i.a (← constant frame i.bx)
  | .loadBool => return (frame.write i.a (.boolean (i.b ≠ 0))).skipIf (i.c ≠ 0)
  | .loadNil => return frame.writeAll i.a (List.replicate (i.b + 1 - i.a) .nil)
  | .getUpval => return frame.write i.a (← readCell (← upvalue frame i.b))
  | .setUpval =>
      writeCell (← upvalue frame i.b) (frame.read i.a)
      return frame
  | .getGlobal =>
      let key ← constant frame i.bx
      return frame.write i.a (← index invoke (.table frame.environment) key frame.depth)
  | .setGlobal =>
      let key ← constant frame i.bx
      assign invoke (.table frame.environment) key (frame.read i.a) frame.depth
      return frame
  | .getTable =>
      let key ← operand frame i.c
      return frame.write i.a (← index invoke (frame.read i.b) key frame.depth)
  | .setTable =>
      let key ← operand frame i.b
      let value ← operand frame i.c
      assign invoke (frame.read i.a) key value frame.depth
      return frame
  | .newTable => return frame.write i.a (.table (← newTable))
  | .self =>
      let object := frame.read i.b
      let key ← operand frame i.c
      let method ← index invoke object key frame.depth
      return (frame.write (i.a + 1) object).write i.a method
  | .add | .sub | .mul | .div | .mod | .pow =>
      let left ← operand frame i.b
      let right ← operand frame i.c
      let a ← arithmeticNumber left
      let b ← arithmeticNumber right
      return frame.write i.a (.number (arithmetic op a b))
  | .unm => return frame.write i.a (.number (-(← arithmeticNumber (frame.read i.b))))
  | .not => return frame.write i.a (.boolean !(frame.read i.b).isTruthy)
  | .len => return frame.write i.a (.ofNat (← length (frame.read i.b)))
  | .concat =>
      let texts ← (List.range' i.b (i.c + 1 - i.b)).mapM fun r => concatenable (frame.read r)
      return frame.write i.a (.string (String.join texts))
  | .jmp => jump frame i.offset
  | .eq =>
      let left ← operand frame i.b
      let right ← operand frame i.c
      return frame.skipIf ((left == right) != (i.a != 0))
  | .lt =>
      let left ← operand frame i.b
      let right ← operand frame i.c
      return frame.skipIf ((← order left right).isLT != (i.a != 0))
  | .le =>
      let left ← operand frame i.b
      let right ← operand frame i.c
      return frame.skipIf ((← order left right).isLE != (i.a != 0))
  | .test => return frame.skipIf ((frame.read i.a).isTruthy != (i.c != 0))
  | .testSet =>
      let value := frame.read i.b
      if value.isTruthy == (i.c != 0) then
        return frame.write i.a value
      else
        return frame.skipIf true
  | .forLoop => loopNext frame i
  | .forPrep => loopEnter frame i
  | .setList => setList frame i
  | .closure => close frame i
  | .vararg => return spread frame i
  | .tForLoop => malformed frame .genericFor
  -- Captured registers are copied into cells, so there is nothing to close.
  | .close | .call | .tailCall | .ret => return frame

/-- What the machine does after an instruction. -/
inductive Flow where
  | next (frame : Frame)
  /-- Calls `f`; the results go to the registers from `a` on, or out of the activation. -/
  | call (frame : Frame) (f : Value) (arguments : List Value) (resume : Resume)
  | finish (results : List Value)

/-- Counts an instruction against the limit. -/
def charge : Vm Unit := do
  let m ← get
  let limit := m.config.limits.instructions
  if 0 < limit then
    if limit < m.steps + 1 then
      fail .instructionLimit
    set { m with steps := m.steps + 1 }

/-- Executes the next instruction of an activation. -/
def step (invoke : Invoke) (frame : Frame) : Vm Flow := do
  match frame.code[frame.pc]? with
  | none => fail (.malformed frame.pc .pastEnd)
  | some i =>
      charge
      let frame := { frame with pc := frame.pc + 1 }
      match i.operation? with
      | none => malformed frame (.unknownOpcode i.opcode)
      | some .call => return .call frame (frame.read i.a) (frame.span (i.a + 1) i.b) (.store i.a i.c)
      | some .tailCall => return .call frame (frame.read i.a) (frame.span (i.a + 1) i.b) .forward
      | some .ret => return .finish (frame.span i.a i.b)
      | some op => return .next (← execute invoke frame op i)

end HookMachine.Vm
