import HookMachine.Instruction
import Mathlib.Data.Nat.Bitwise

/-!
Instruction words read back. The fields of a word stand side by side, so what is packed into one
field is what is read from it.
-/

namespace HookMachine.Instruction

variable (op : Opcode) (a : UInt8) (b c : UInt16) (bx : UInt32)

theorem code_lt (op : Opcode) : op.code < 2 ^ 6 := by
  cases op <;> decide

theorem toNat_code (op : Opcode) : op.code.toUInt32.toNat = op.code := by
  rw [Nat.toUInt32_eq]
  exact UInt32.toNat_ofNat_of_lt' (Nat.lt_trans (code_lt op) (by decide))

/-- Bits above a number are added to it. -/
theorem or_shiftLeft {low high width : Nat} (below : low < 2 ^ width)
    (within : high * 2 ^ width < 2 ^ 32)
    : low ||| high <<< width % 2 ^ 32 = low + 2 ^ width * high := by
  rw [Nat.shiftLeft_eq, Nat.mod_eq_of_lt within, Nat.mul_comm, Nat.or_comm, Nat.add_comm]
  exact (Nat.two_pow_add_eq_or_of_lt below high).symm

theorem and_511 (n : Nat) : n &&& 511 = n % 2 ^ 9 :=
  Nat.and_two_pow_sub_one_eq_mod n 9

theorem and_262143 (n : Nat) : n &&& 262143 = n % 2 ^ 18 :=
  Nat.and_two_pow_sub_one_eq_mod n 18

/-- The fields of a word stand side by side. -/
theorem toNat_abc
    : (abc op a b c).word.toNat
      = op.code + 2 ^ 6 * a.toNat + 2 ^ 14 * (b.toNat % 2 ^ 9) + 2 ^ 23 * (c.toNat % 2 ^ 9) := by
  have code := code_lt op
  have field := a.toNat_lt
  have word
      : (abc op a b c).word.toNat
        = op.code.toUInt32.toNat ||| a.toUInt32.toNat <<< 6 % 2 ^ 32
            ||| (b.toUInt32.toNat &&& 511) <<< 14 % 2 ^ 32
            ||| (c.toUInt32.toNat &&& 511) <<< 23 % 2 ^ 32 := by
    simp only [abc, UInt32.toNat_or, UInt32.toNat_shiftLeft, UInt32.toNat_and]
    rfl
  rw [word, toNat_code, UInt8.toNat_toUInt32, UInt16.toNat_toUInt32, UInt16.toNat_toUInt32,
    and_511, and_511, or_shiftLeft code (by omega),
    or_shiftLeft (show op.code + 2 ^ 6 * a.toNat < 2 ^ 14 by omega) (by omega),
    or_shiftLeft (by omega) (by omega)]

theorem toNat_abx
    : (abx op a bx).word.toNat = op.code + 2 ^ 6 * a.toNat + 2 ^ 14 * (bx.toNat % 2 ^ 18) := by
  have code := code_lt op
  have field := a.toNat_lt
  have word
      : (abx op a bx).word.toNat
        = op.code.toUInt32.toNat ||| a.toUInt32.toNat <<< 6 % 2 ^ 32
            ||| (bx.toNat &&& 262143) <<< 14 % 2 ^ 32 := by
    simp only [abx, UInt32.toNat_or, UInt32.toNat_shiftLeft, UInt32.toNat_and]
    rfl
  rw [word, toNat_code, UInt8.toNat_toUInt32, and_262143, or_shiftLeft code (by omega),
    or_shiftLeft (by omega) (by omega)]

theorem opcode_eq (i : Instruction) : i.opcode = i.word.toNat % 2 ^ 6 :=
  (UInt32.toNat_and ..).trans (Nat.and_two_pow_sub_one_eq_mod _ 6)

theorem a_eq (i : Instruction) : i.a = i.word.toNat / 2 ^ 6 % 2 ^ 8 := by
  rw [Instruction.a, UInt32.toNat_and, UInt32.toNat_shiftRight, Nat.shiftRight_eq_div_pow]
  exact Nat.and_two_pow_sub_one_eq_mod _ 8

theorem b_eq (i : Instruction) : i.b = i.word.toNat / 2 ^ 14 % 2 ^ 9 := by
  rw [Instruction.b, UInt32.toNat_and, UInt32.toNat_shiftRight, Nat.shiftRight_eq_div_pow]
  exact and_511 _

theorem c_eq (i : Instruction) : i.c = i.word.toNat / 2 ^ 23 % 2 ^ 9 := by
  rw [Instruction.c, UInt32.toNat_and, UInt32.toNat_shiftRight, Nat.shiftRight_eq_div_pow]
  exact and_511 _

theorem bx_eq (i : Instruction) : i.bx = i.word.toNat / 2 ^ 14 % 2 ^ 18 := by
  rw [Instruction.bx, UInt32.toNat_and, UInt32.toNat_shiftRight, Nat.shiftRight_eq_div_pow]
  exact and_262143 _

/-- An operation and the fields A, B and C are read back from their word. -/
theorem abc_fields
    : (abc op a b c).operation? = some op ∧ (abc op a b c).a = a.toNat
      ∧ (abc op a b c).b = b.toNat % 2 ^ 9 ∧ (abc op a b c).c = c.toNat % 2 ^ 9 := by
  have code := code_lt op
  have field := a.toNat_lt
  have opcode : (abc op a b c).opcode = op.code := by
    rw [opcode_eq, toNat_abc]
    omega
  refine ⟨?_, ?_, ?_, ?_⟩
  · rw [operation?, opcode, Opcode.ofCode?_code]
  · rw [a_eq, toNat_abc]
    omega
  · rw [b_eq, toNat_abc]
    omega
  · rw [c_eq, toNat_abc]
    omega

/-- So are an operation and the fields A and Bx. -/
theorem abx_fields
    : (abx op a bx).operation? = some op ∧ (abx op a bx).a = a.toNat
      ∧ (abx op a bx).bx = bx.toNat % 2 ^ 18 := by
  have code := code_lt op
  have field := a.toNat_lt
  have opcode : (abx op a bx).opcode = op.code := by
    rw [opcode_eq, toNat_abx]
    omega
  refine ⟨?_, ?_, ?_⟩
  · rw [operation?, opcode, Opcode.ofCode?_code]
  · rw [a_eq, toNat_abx]
    omega
  · rw [bx_eq, toNat_abx]
    omega

end HookMachine.Instruction
