import HookMachine.Proofs.Instruction.Words

/-!
The formats of instruction words are bijections: between operations with the fields that fit, and
the words whose operation is known. What does not fit into a field is cut off there and leaves the
other fields alone.
-/

namespace HookMachine.Instruction

/-- How what stands above the field A is put into a word and read from it. -/
structure Format (α : Type) where
  encode : Opcode → UInt8 → α → Instruction
  read : Instruction → α
  /-- What the bits above A can hold. -/
  Fits : α → Prop

/-- The format with the fields B and C. -/
def pairFormat : Format (UInt16 × UInt16) where
  encode op a x := abc op a x.1 x.2
  read i := (i.b.toUInt16, i.c.toUInt16)
  Fits x := x.1.toNat < 2 ^ 9 ∧ x.2.toNat < 2 ^ 9

/-- The format with the field Bx. -/
def wideFormat : Format UInt32 where
  encode := abx
  read i := i.bx.toUInt32
  Fits x := x.toNat < 2 ^ 18

/-- The format with a signed offset. -/
def signedFormat : Format Int where
  encode := asbx
  read := offset
  Fits x := -131071 ≤ x ∧ x ≤ 131072

/-- Fields that fit are read back from the word that they are put into, and a word of a known
operation is what its fields are put into.
-/
structure Format.Bijective {α : Type} (format : Format α) : Prop where
  recovers (op : Opcode) (a : UInt8) (x : α)
    : format.Fits x
      → (format.encode op a x).opcode = op.code ∧ (format.encode op a x).operation? = some op
        ∧ (format.encode op a x).a = a.toNat ∧ format.read (format.encode op a x) = x
  restores (i : Instruction) (op : Opcode)
    : i.operation? = some op
      → format.Fits (format.read i) ∧ format.encode op i.a.toUInt8 (format.read i) = i

variable {i j : Instruction} {op : Opcode}

theorem code_of_ofCode? {n : Nat} (known : Opcode.ofCode? n = some op) : op.code = n := by
  have numbered : ∀ n : Fin Opcode.all.size, Opcode.all[n].code = n := by decide
  obtain ⟨within, rfl⟩ := Array.getElem?_eq_some_iff.mp known
  exact numbered ⟨n, within⟩

/-- A known operation has the number that the word holds. -/
theorem opcode_of_operation? (known : i.operation? = some op) : i.opcode = op.code :=
  (code_of_ofCode? known).symm

theorem ext_toNat (same : i.word.toNat = j.word.toNat) : i = j := by
  obtain ⟨word⟩ := i
  obtain ⟨other⟩ := j
  exact congrArg Instruction.mk (UInt32.toNat_inj.mp same)

theorem a_lt (i : Instruction) : i.a < 2 ^ 8 := by
  rw [a_eq]
  exact Nat.mod_lt _ (by decide)

theorem b_lt (i : Instruction) : i.b < 2 ^ 9 := by
  rw [b_eq]
  exact Nat.mod_lt _ (by decide)

theorem c_lt (i : Instruction) : i.c < 2 ^ 9 := by
  rw [c_eq]
  exact Nat.mod_lt _ (by decide)

theorem bx_lt (i : Instruction) : i.bx < 2 ^ 18 := by
  rw [bx_eq]
  exact Nat.mod_lt _ (by decide)

theorem toNat_a (i : Instruction) : i.a.toUInt8.toNat = i.a :=
  UInt8.toNat_ofNat_of_lt' (a_lt i)

theorem toNat_b (i : Instruction) : i.b.toUInt16.toNat = i.b :=
  UInt16.toNat_ofNat_of_lt' (Nat.lt_trans (b_lt i) (by decide))

theorem toNat_c (i : Instruction) : i.c.toUInt16.toNat = i.c :=
  UInt16.toNat_ofNat_of_lt' (Nat.lt_trans (c_lt i) (by decide))

theorem toNat_bx (i : Instruction) : i.bx.toUInt32.toNat = i.bx :=
  UInt32.toNat_ofNat_of_lt' (Nat.lt_trans (bx_lt i) (by decide))

/-- The fields A, B and C make up the word with its operation. -/
theorem abc_restores (known : i.operation? = some op)
    : abc op i.a.toUInt8 i.b.toUInt16 i.c.toUInt16 = i := by
  have number := opcode_of_operation? known
  have word := i.word.toNat_lt
  apply ext_toNat
  rw [toNat_abc, toNat_a, toNat_b, toNat_c, ← number, opcode_eq, a_eq, b_eq, c_eq]
  omega

/-- So do A and Bx. -/
theorem abx_restores (known : i.operation? = some op)
    : abx op i.a.toUInt8 i.bx.toUInt32 = i := by
  have number := opcode_of_operation? known
  have word := i.word.toNat_lt
  apply ext_toNat
  rw [toNat_abx, toNat_a, toNat_bx, ← number, opcode_eq, a_eq, bx_eq]
  omega

/-- A signed offset is put into Bx with its bias. -/
theorem asbx_fields {offset : Int} (least : -131071 ≤ offset) (most : offset ≤ 131072) (op : Opcode)
    (a : UInt8)
    : (asbx op a offset).operation? = some op ∧ (asbx op a offset).a = a.toNat
      ∧ (asbx op a offset).offset = offset := by
  obtain ⟨operation, fieldA, fieldBx⟩ := abx_fields op a (.ofInt (offset + signBias))
  have biased : (UInt32.ofInt (offset + signBias)).toNat = (offset + 131071).toNat := by
    rw [UInt32.ofInt, UInt32.toNat_ofNat', signBias]
    omega
  refine ⟨operation, fieldA, ?_⟩
  rw [Instruction.offset, asbx, fieldBx, biased, signBias]
  omega

theorem offset_fits (i : Instruction) : signedFormat.Fits i.offset := by
  have within := bx_lt i
  change -131071 ≤ (i.bx : Int) - 131071 ∧ (i.bx : Int) - 131071 ≤ 131072
  omega

/-- A and the signed offset make up the word as well. -/
theorem asbx_restores (known : i.operation? = some op)
    : asbx op i.a.toUInt8 i.offset = i := by
  have biased : i.offset + signBias = i.bx := by
    unfold offset
    omega
  have unsigned : UInt32.ofInt i.bx = i.bx.toUInt32 := by
    apply UInt32.toNat_inj.mp
    rw [UInt32.ofInt, UInt32.toNat_ofNat', toNat_bx]
    have within := bx_lt i
    omega
  rw [asbx, biased, unsigned]
  exact abx_restores known

theorem pairFormat_bijective : pairFormat.Bijective := by
  constructor
  case recovers =>
    intro op a x fits
    obtain ⟨fitsB, fitsC⟩ : x.1.toNat < 2 ^ 9 ∧ x.2.toNat < 2 ^ 9 := fits
    obtain ⟨operation, fieldA, fieldB, fieldC⟩ := abc_fields op a x.1 x.2
    have readB : (abc op a x.1 x.2).b.toUInt16 = x.1 :=
      UInt16.toNat_inj.mp ((toNat_b _).trans (fieldB.trans (Nat.mod_eq_of_lt fitsB)))
    have readC : (abc op a x.1 x.2).c.toUInt16 = x.2 :=
      UInt16.toNat_inj.mp ((toNat_c _).trans (fieldC.trans (Nat.mod_eq_of_lt fitsC)))
    exact ⟨opcode_of_operation? operation, operation, fieldA, Prod.ext readB readC⟩
  case restores =>
    intro i op known
    exact ⟨⟨(toNat_b i).trans_lt (b_lt i), (toNat_c i).trans_lt (c_lt i)⟩, abc_restores known⟩

theorem wideFormat_bijective : wideFormat.Bijective := by
  constructor
  case recovers =>
    intro op a x fits
    have fits : x.toNat < 2 ^ 18 := fits
    obtain ⟨operation, fieldA, fieldBx⟩ := abx_fields op a x
    have read : (abx op a x).bx.toUInt32 = x :=
      UInt32.toNat_inj.mp ((toNat_bx _).trans (fieldBx.trans (Nat.mod_eq_of_lt fits)))
    exact ⟨opcode_of_operation? operation, operation, fieldA, read⟩
  case restores =>
    intro i op known
    exact ⟨(toNat_bx i).trans_lt (bx_lt i), abx_restores known⟩

theorem signedFormat_bijective : signedFormat.Bijective := by
  constructor
  case recovers =>
    intro op a x fits
    obtain ⟨operation, fieldA, signed⟩ := asbx_fields fits.1 fits.2 op a
    exact ⟨opcode_of_operation? operation, operation, fieldA, signed⟩
  case restores =>
    intro i op known
    exact ⟨offset_fits i, asbx_restores known⟩

/-- Operations with fields that fit, and words of known operations, are in bijection in all three
formats, and what does not fit into a field is cut off without a trace in the others.
-/
theorem formats_bijective
    : pairFormat.Bijective ∧ wideFormat.Bijective ∧ signedFormat.Bijective
      ∧ (∀ op a b c, (abc op a b c).opcode = op.code ∧ (abc op a b c).a = a.toNat
          ∧ (abc op a b c).b = b.toNat % 2 ^ 9 ∧ (abc op a b c).c = c.toNat % 2 ^ 9)
      ∧ ∀ op a bx, (abx op a bx).opcode = op.code ∧ (abx op a bx).a = a.toNat
          ∧ (abx op a bx).bx = bx.toNat % 2 ^ 18 := by
  refine ⟨pairFormat_bijective, wideFormat_bijective, signedFormat_bijective, ?_, ?_⟩
  · intro op a b c
    obtain ⟨operation, fields⟩ := abc_fields op a b c
    exact ⟨opcode_of_operation? operation, fields⟩
  · intro op a bx
    obtain ⟨operation, fields⟩ := abx_fields op a bx
    exact ⟨opcode_of_operation? operation, fields⟩

end HookMachine.Instruction
