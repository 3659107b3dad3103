import HookMachine.Proofs.Number.Canonical

/-!
Counting in numbers is exact up to 2 ^ 53: such a count as a number is that positive integer
again.
-/

namespace HookMachine.Number

open Float.Model Float.Model.UnpackedFloat

variable {significand : Nat} {exponent : Int}

-----------------------------------------------------------------------------------------
-- Packing and rounding what is exact
-----------------------------------------------------------------------------------------

theorem ofBitVec_unpackSign_packComponents (sign : Sign) (exponent : BitVec 11)
    (mantissa : BitVec 52)
    : Sign.ofBitVec (unpackSign (packComponents .binary64 sign exponent mantissa)) = sign := by
  simp only [unpackSign, packComponents, BitVec.extractLsb]
  rw [BitVec.extractLsb'_append_eq_of_le (by omega),
    BitVec.extractLsb'_append_eq_of_le (by omega)]
  cases sign <;> rfl

theorem log2_normal (normal : fractionValues ≤ significand) (short : significand < 2 * fractionValues)
    : significand.log2 = 52 := by
  have positive : 0 < significand := Nat.lt_of_lt_of_le (by decide) normal
  exact (Nat.log2_eq_iff positive.ne').mpr ⟨normal, short⟩

/-- Each binary place that a significand is shifted up adds one to its length. -/
theorem log2_shift {n : Nat} (positive : 0 < n) (places : Nat)
    : (n * 2 ^ places).log2 = n.log2 + places := by
  have some : 0 < 2 ^ places := Nat.two_pow_pos _
  refine (Nat.log2_eq_iff (Nat.mul_pos positive some).ne').mpr ⟨?_, ?_⟩
  · rw [Nat.pow_add]
    exact Nat.mul_le_mul_right _ (Nat.log2_self_le positive.ne')
  · rw [Nat.add_right_comm, Nat.pow_add]
    exact Nat.mul_lt_mul_of_pos_right Nat.lt_log2_self some

/-- A normal number that is packed unpacks to what it was made of. -/
theorem unpack_pack (sign : Sign) (positive : 0 < significand)
    (normal : fractionValues ≤ significand) (short : significand < 2 * fractionValues)
    (least : -1074 ≤ exponent) (greatest : exponent ≤ 971)
    : (Float.Model.pack (.finite sign significand exponent positive)).unpack
      = .finite sign significand exponent positive := by
  have log := log2_normal normal short
  have biased : (exponent + Format.binary64.exponentBias
      + Format.binary64.mantissaBitsWithoutImplicit).toNat = (exponent + 1075).toNat := by
    change (exponent + (1023 : Int) + (52 : Int)).toNat = _
    omega
  have top : BitVec.ofNat 11 (exponent + 1075).toNat ≠ -1#11 := by
    intro same
    have := congrArg BitVec.toNat same
    simp at this
    omega
  have bottom : BitVec.ofNat 11 (exponent + 1075).toNat ≠ 0#11 := by
    intro same
    have := congrArg BitVec.toNat same
    simp at this
    omega
  change UnpackedFloat.unpack .binary64 (UnpackedFloat.pack .binary64 _) = _
  rw [UnpackedFloat.pack]
  simp only [log, biased]
  rw [if_neg (by omega), if_pos (by decide), UnpackedFloat.unpack]
  simp only [unpackMantissa_packComponents, unpackExponent_packComponents,
    ofBitVec_unpackSign_packComponents]
  rw [if_neg top, if_neg bottom]
  simp only [toNat_implicit]
  congr 1
  · rw [fractionValues] at *
    simp
    omega
  · simp [Format.exponentBias]
    omega

/-- Shifting out binary places that are zero loses nothing, by induction over the places. -/
theorem shiftRight_exact (significand places : Nat)
    : (ExtendedMantissa.mk (significand * 2 ^ places) false false) >>> places
      = ⟨significand, false, false⟩ := by
  induction places generalizing significand with
  | zero => simp [HShiftRight.hShiftRight, Nat.repeat]
  | succ places ih =>
      have step := ih (2 * significand)
      change ExtendedMantissa.shiftRightOne (Nat.repeat _ places _) = _
      change Nat.repeat _ places _ = _ at step
      rw [Nat.pow_succ', ← Nat.mul_assoc, Nat.mul_comm significand 2, step]
      simp [ExtendedMantissa.shiftRightOne]

/-- Shifting an exact number to its target exponent gives its canonical form. -/
theorem shiftToTargetExponent_exact (places : Nat) (normal : fractionValues ≤ significand)
    (short : significand < 2 * fractionValues) (least : -1074 ≤ exponent)
    : shiftToTargetExponent .binary64 (significand * 2 ^ places) (exponent - places) .exact
      = (⟨significand, false, false⟩, exponent) := by
  have positive : 0 < significand := Nat.lt_of_lt_of_le (by decide) normal
  have log : (significand * 2 ^ places).log2 = 52 + places := by
    rw [log2_shift positive, log2_normal normal short]
  have target : Format.binary64.targetExponent
      (totalExponent (significand * 2 ^ places) (exponent - places)) = exponent := by
    rw [totalExponent, log]
    simp only [Format.targetExponent, Format.mantissaBits, Format.minExponent]
    norm_num
    omega
  unfold shiftToTargetExponent shiftToExponent
  simp only [target, ExtendedMantissa.ofMantissaAndAccuracy]
  have shift : (exponent - (exponent - places)).toNat = places := by omega
  rw [shift, shiftRight_exact]
  congr 1
  omega

/-- Rounding keeps what is exact. -/
theorem roundWithAccuracy_exact (sign : Sign) (places : Nat) (positive : 0 < significand)
    (normal : fractionValues ≤ significand) (short : significand < 2 * fractionValues)
    (least : -1074 ≤ exponent)
    : roundWithAccuracy .binary64 sign (significand * 2 ^ places) (exponent - places) .exact
      = .finite sign significand exponent positive := by
  have again := shiftToTargetExponent_exact 0 normal short least
  simp only [Nat.pow_zero, Nat.mul_one, Int.natCast_zero, Int.sub_zero] at again
  unfold roundWithAccuracy
  simp only [shiftToTargetExponent_exact places normal short least,
    ExtendedMantissa.roundedMantissa, ExtendedMantissa.accuracy, Accuracy.roundToNearestEven, again]
  rw [dif_neg positive.ne']

-----------------------------------------------------------------------------------------
-- Counts as numbers
-----------------------------------------------------------------------------------------

/-- A small count has a normal significand after a shift. -/
theorem exists_shift {n : Nat} (positive : 0 < n) (small : n < 2 * fractionValues)
    : ∃ shift, n.log2 + shift = 52
        ∧ fractionValues ≤ n * 2 ^ shift ∧ n * 2 ^ shift < 2 * fractionValues := by
  have short : n.log2 < 53 := (Nat.log2_lt positive.ne').mpr small
  have log := log2_shift positive (52 - n.log2)
  rw [show n.log2 + (52 - n.log2) = 52 by omega] at log
  obtain ⟨low, high⟩ :=
    (Nat.log2_eq_iff (Nat.mul_pos positive (Nat.two_pow_pos _)).ne').mp log
  exact ⟨52 - n.log2, by omega, low, high⟩

/-- A small count is rounded to its canonical form. -/
theorem round_count {n shift : Nat} (positive : 0 < n) (log : n.log2 + shift = 52)
    (normal : fractionValues ≤ n * 2 ^ shift) (short : n * 2 ^ shift < 2 * fractionValues)
    : round .binary64 .positive n 0
      = .finite .positive (n * 2 ^ shift) (-shift) (Nat.mul_pos positive (Nat.two_pow_pos _)) := by
  have target : Format.binary64.targetExponent (totalExponent n 0) = -shift := by
    simp only [totalExponent, Format.targetExponent, Format.mantissaBits, Format.minExponent]
    norm_num
    omega
  have amount : (0 - (-(shift : Int))).toNat = shift := by omega
  unfold UnpackedFloat.round decreaseExponent
  simp only [target, amount, Nat.shiftLeft_eq]
  have least : -1074 ≤ -(shift : Int) := by omega
  have kept := roundWithAccuracy_exact .positive 0 (Nat.mul_pos positive (Nat.two_pow_pos _)) normal
    short least
  simpa using kept

theorem mul_eq (x y : Float)
    : x * y = .ofModel (.pack (UnpackedFloat.mul .binary64 x.toModel.unpack y.toModel.unpack)) :=
  rfl

theorem unpack_one
    : (Float.ofBits 0x3FF0000000000000).toModel.unpack
      = .finite .positive fractionValues (-52) (by decide) :=
  rfl

/-- Multiplying a normal number by one leaves it. -/
theorem pack_mul_one (positive : 0 < significand)
    (normal : fractionValues ≤ significand) (short : significand < 2 * fractionValues)
    (least : -1074 ≤ exponent) (greatest : exponent ≤ 971)
    : .ofModel (.pack (.finite .positive significand exponent positive))
        * Float.ofBits 0x3FF0000000000000
      = .ofModel (.pack (.finite .positive significand exponent positive)) := by
  rw [mul_eq, unpack_one, unpack_pack _ positive normal short least greatest]
  exact congrArg (fun rounded => Float.ofModel (.pack rounded))
    (roundWithAccuracy_exact .positive 52 positive normal short least)

/-- A small count as a number. -/
theorem toFloat_eq_pack {n shift : Nat} (positive : 0 < n) (log : n.log2 + shift = 52)
    (normal : fractionValues ≤ n * 2 ^ shift) (short : n * 2 ^ shift < 2 * fractionValues)
    (small : n < 2 * fractionValues)
    : n.toFloat
      = .ofModel (.pack (.finite .positive (n * 2 ^ shift) (-shift)
          (Nat.mul_pos positive (Nat.two_pow_pos _)))) := by
  have whole : n.toUInt64.toFloat
      = .ofModel (.pack (.finite .positive (n * 2 ^ shift) (-shift)
          (Nat.mul_pos positive (Nat.two_pow_pos _)))) := by
    rw [← round_count positive log normal short]
    change Float.ofModel (.pack (normalize .binary64 (n.toUInt64.toNat : Int) 0 .positive)) = _
    have same : n.toUInt64.toNat = n := by
      rw [Nat.toUInt64_eq, UInt64.toNat_ofNat_of_lt']
      exact Nat.lt_trans small (by decide)
    rw [same]
    unfold UnpackedFloat.normalize
    rw [Int.compare_eq_gt.mpr (by omega)]
    rfl
  change Float.ofScientific n false 0 = _
  unfold Float.ofScientific
  rw [dif_pos ⟨small, by decide⟩]
  simp only [Bool.false_eq_true, if_false]
  rw [whole]
  exact pack_mul_one _ normal short (by omega) (by omega)

/-- A count up to 2 ^ 53 as a number is that positive integer again. -/
theorem toIndex?_toFloat {n : Nat} (positive : 0 < n) (small : n ≤ 2 * fractionValues)
    : toIndex? n.toFloat = some n := by
  rcases small.eq_or_lt with rfl | small
  · decide +kernel
  obtain ⟨shift, log, normal, short⟩ := exists_shift positive small
  have taken : parts n.toFloat = .finite false (n * 2 ^ shift) (-shift) := by
    rw [toFloat_eq_pack positive log normal short small, parts_eq_ofUnpacked,
      unpack_pack _ _ normal short (by omega) (by omega)]
    rfl
  have below : shift ≤ places := by
    rw [places]
    omega
  refine toIndex?_eq_some.mpr ⟨positive, n * 2 ^ shift, places - shift, ?_, ?_⟩
  · rw [taken]
    congr 1
    omega
  · rw [Nat.mul_assoc, ← Nat.pow_add, Nat.add_sub_cancel' below]

-----------------------------------------------------------------------------------------
-- Counts are no NaN
-----------------------------------------------------------------------------------------

theorem unpackExponent_packComponents (sign : Sign) (exponent : BitVec 11) (mantissa : BitVec 52)
    : unpackExponent (packComponents .binary64 sign exponent mantissa) = exponent := by
  simp only [unpackExponent, packComponents, BitVec.extractLsb]
  rw [BitVec.extractLsb'_append_eq_of_le (by decide),
    BitVec.extractLsb'_append_eq_of_add_le (by decide)]
  exact BitVec.extractLsb'_eq_self

/-- What is no NaN is packed as none: exponents that are too large are packed as infinity. -/
theorem isNaN_pack {u : UnpackedFloat} (number : u.isNaN = false)
    : (Float.ofModel (.pack u)).isNaN = false := by
  change (unpack .binary64 (UnpackedFloat.pack .binary64 u)).isNaN = false
  cases u with
  | notANumber => cases number
  | infinity s => cases s <;> decide
  | zero s => cases s <;> decide
  | finite s m e positive =>
    have proper (exponent : BitVec 11) (mantissa : BitVec 52) (below : exponent ≠ -1#11)
        : (unpack .binary64 (packComponents .binary64 s exponent mantissa)).isNaN = false := by
      unfold UnpackedFloat.unpack
      rw [unpackExponent_packComponents]
      dsimp only
      rw [if_neg below]
      split
      · split <;> rfl
      · rfl
    unfold UnpackedFloat.pack
    dsimp only
    split
    · cases s <;> decide
    · rename_i small
      split
      · refine proper _ _ fun same => ?_
        have full := congrArg BitVec.toNat same
        simp only [Format.binary64] at small full
        simp at full
        omega
      · exact proper _ _ (by decide)

theorem isNaN_roundWithAccuracy (sign : Sign) (significand : Nat) (exponent : Int)
    (accuracy : Accuracy)
    : (roundWithAccuracy .binary64 sign significand exponent accuracy).isNaN = false := by
  unfold roundWithAccuracy
  dsimp only
  split <;> rfl

/-- What is read off digits without an exponent is no NaN. -/
theorem isNaN_ofScientific (n : Nat)
    : (UnpackedFloat.ofScientific .binary64 n 0).isNaN = false := by
  unfold UnpackedFloat.ofScientific
  split
  · rfl
  · split
    · rfl
    · split
      · rfl
      · simp only [le_refl, if_true, UnpackedFloat.mul, isNaN_roundWithAccuracy]

/-- No count is NaN. -/
theorem isNaN_toFloat (n : Nat) : n.toFloat.isNaN = false := by
  by_cases small : n < 2 * fractionValues
  · rcases n.eq_zero_or_pos with rfl | positive
    · decide +kernel
    · obtain ⟨shift, log, normal, short⟩ := exists_shift positive small
      rw [toFloat_eq_pack positive log normal short small]
      exact isNaN_pack rfl
  · change (Float.ofScientific n false 0).isNaN = false
    unfold Float.ofScientific
    rw [dif_neg fun fits => small fits.1]
    exact isNaN_pack (isNaN_ofScientific n)

end HookMachine.Number
