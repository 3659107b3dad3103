import HookMachine.Opcode

/-!
Instruction words of 32 bits: 6 for the operation, 8 for A, and 18 that are read either as
the 9-bit fields B and C or as one field Bx, which in turn can carry a biased sign.
-/

namespace HookMachine

/-- One instruction word. -/
structure Instruction where
  word : UInt32
deriving DecidableEq, Inhabited, Repr

/-- The bit of a B or C field that selects a constant instead of a register. -/
def constantBit : UInt16 := 0x100

/-- The operand for constant `k`; only the low 8 bits of `k` fit. -/
def constantOperand (k : Nat) : UInt16 :=
  constantBit ||| (k.toUInt16 &&& 0xff)

/-- What is added to a signed offset to store it in Bx. -/
def signBias : Int := 131071

namespace Instruction

/-- Packs an operation and the fields A, B and C, of which B and C keep 9 bits. -/
def abc (op : Opcode) (a : UInt8) (b c : UInt16) : Instruction :=
  ⟨op.code.toUInt32 ||| (a.toUInt32 <<< 6) ||| ((b.toUInt32 &&& 0x1ff) <<< 14)
    ||| ((c.toUInt32 &&& 0x1ff) <<< 23)⟩

/-- Packs an operation and the fields A and Bx, of which Bx keeps 18 bits. -/
def abx (op : Opcode) (a : UInt8) (bx : UInt32) : Instruction :=
  ⟨op.code.toUInt32 ||| (a.toUInt32 <<< 6) ||| ((bx &&& 0x3ffff) <<< 14)⟩

/-- Packs an operation, the field A and a signed offset. -/
def asbx (op : Opcode) (a : UInt8) (offset : Int) : Instruction :=
  abx op a (.ofInt (offset + signBias))

/-- The number of the operation. -/
def opcode (i : Instruction) : Nat :=
  (i.word &&& 0x3f).toNat

/-- The field A. -/
def a (i : Instruction) : Nat :=
  ((i.word >>> 6) &&& 0xff).toNat

/-- The field B. -/
def b (i : Instruction) : Nat :=
  ((i.word >>> 14) &&& 0x1ff).toNat

/-- The field C. -/
def c (i : Instruction) : Nat :=
  ((i.word >>> 23) &&& 0x1ff).toNat

/-- The field Bx. -/
def bx (i : Instruction) : Nat :=
  ((i.word >>> 14) &&& 0x3ffff).toNat

/-- The field Bx read as a signed offset. -/
def offset (i : Instruction) : Int :=
  (i.bx : Int) - signBias

/-- The operation, if its number is known. -/
def operation? (i : Instruction) : Option Opcode :=
  Opcode.ofCode? i.opcode

end Instruction
end HookMachine
