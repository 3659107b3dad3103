import HookMachine.Number
import Mathlib

/-!
The parts of a number are its canonical form: equal numbers have equal parts, unless both are
zero, and no two numbers are the same positive integer.
-/

namespace HookMachine.Number

open Float.Model Float.Model.UnpackedFloat

-----------------------------------------------------------------------------------------
-- Parts and unpacked numbers
-----------------------------------------------------------------------------------------

theorem toNat_unpackMantissa (bits : BitVec 64)
    : (@unpackMantissa .binary64 bits).toNat = bits.toNat % fractionValues := by
  simp [unpackMantissa, fractionValues]

theorem toNat_unpackExponent (bits : BitVec 64)
    : (@unpackExponent .binary64 bits).toNat
      = bits.toNat / fractionValues % exponentValues := by
  simp [unpackExponent, fractionValues, exponentValues, Nat.shiftRight_eq_div_pow]

theorem toNat_unpackSign (bits : BitVec 64)
    : (@unpackSign .binary64 bits).toNat = bits.toNat / signWeight := by
  have bound := bits.isLt
  simp [unpackSign, signWeight, Nat.shiftRight_eq_div_pow]
  omega

/-- Whether a sign is that of the negative numbers. -/
def isNegative : Sign → Bool
  | .negative => true
  | .positive => false

theorem isNegative_ofBitVec (bit : BitVec 1)
    : isNegative (Sign.ofBitVec bit) = decide (bit.toNat = 1) := by
  revert bit
  decide

/-- The implicit bit of a significand stands above its fraction. -/
theorem toNat_implicit (fraction : BitVec 52)
    : (1#1 ++ fraction).toNat = fractionValues + fraction.toNat := by
  rw [BitVec.toNat_append, ← Nat.shiftLeft_add_eq_or_of_lt fraction.isLt]
  rfl

/-- The parts of an unpacked number. -/
def ofUnpacked : UnpackedFloat → Parts
  | .notANumber => .nan
  | .infinity sign => .infinite (isNegative sign)
  | .zero sign => .finite (isNegative sign) 0 (-1074)
  | .finite sign mantissa exponent _ => .finite (isNegative sign) mantissa exponent

/-- Taking a number apart is unpacking it. -/
theorem parts_eq_ofUnpacked (x : Float) : parts x = ofUnpacked x.toModel.unpack := by
  have sign := isNegative_ofBitVec (@unpackSign .binary64 x.toBits.toBitVec)
  rw [toNat_unpackSign] at sign
  have mantissa := toNat_unpackMantissa x.toBits.toBitVec
  have exponent := toNat_unpackExponent x.toBits.toBitVec
  have top : @unpackExponent .binary64 x.toBits.toBitVec = -1#_
      ↔ x.toBits.toNat / fractionValues % exponentValues = exponentValues - 1 := by
    rw [← BitVec.toNat_inj, exponent]
    rfl
  have bottom : @unpackExponent .binary64 x.toBits.toBitVec = 0#_
      ↔ x.toBits.toNat / fractionValues % exponentValues = 0 := by
    rw [← BitVec.toNat_inj, exponent]
    rfl
  have whole : @unpackMantissa .binary64 x.toBits.toBitVec = 0#_
      ↔ x.toBits.toNat % fractionValues = 0 := by
    rw [← BitVec.toNat_inj, mantissa]
    rfl
  change _ = ofUnpacked (UnpackedFloat.unpack .binary64 x.toBits.toBitVec)
  unfold parts UnpackedFloat.unpack
  simp only [top, bottom, whole, exponent]
  split
  · split
    · rw [ofUnpacked, sign]
      rfl
    · rfl
  · split
    · rename_i least
      have least : x.toBits.toBitVec.toNat / fractionValues % exponentValues = 0 := least
      split
      · rename_i zero
        rw [ofUnpacked, sign, zero]
        rfl
      · rw [ofUnpacked, sign, mantissa, least]
        rfl
    · rw [ofUnpacked, sign, toNat_implicit, mantissa]
      rfl

/-- The binary places that the least exponent lies below the units. -/
@[irreducible]
def places : Nat := 1074

/-- A significand has at most 53 bits, and fewer only with the least exponent. -/
theorem parts_canonical {x : Float} {negative : Bool} {significand : Nat} {exponent : Int}
    (finite : parts x = .finite negative significand exponent)
    : ∃ scale : Nat, exponent = scale - places
        ∧ significand < 2 * fractionValues
        ∧ (significand < fractionValues → scale = 0) := by
  have bound : x.toBits.toNat % fractionValues < fractionValues := Nat.mod_lt _ (by decide)
  unfold parts at finite
  dsimp only at finite
  split at finite
  · split at finite <;> cases finite
  · split at finite
    · obtain ⟨-, rfl, rfl⟩ := Parts.finite.inj finite
      exact ⟨0, by rw [places]; rfl, by omega, fun _ => rfl⟩
    · rename_i normal
      obtain ⟨-, rfl, rfl⟩ := Parts.finite.inj finite
      refine ⟨x.toBits.toNat / fractionValues % exponentValues - 1, ?_, by omega, by omega⟩
      rw [places]
      omega

-----------------------------------------------------------------------------------------
-- Equality of numbers
-----------------------------------------------------------------------------------------

/-- What the parts of a number count as in comparisons: both zeros are one, and NaN is nothing. -/
def Parts.comparand? : Parts → Option Parts
  | .nan => none
  | .finite _ 0 _ => some (.finite false 0 0)
  | parts => some parts

/-- Unpacked numbers compare as equal that count as the same. -/
theorem compare_eq_iff (a b : UnpackedFloat)
    : a.compare b = some .eq
      ↔ ∃ counted, (ofUnpacked a).comparand? = some counted
          ∧ (ofUnpacked b).comparand? = some counted := by
  rcases a with s | _ | s | ⟨s, _ | m, e, positive⟩ <;>
    rcases b with t | _ | t | ⟨t, _ | n, f, positive'⟩
  case finite.succ.finite.succ =>
    cases s <;> cases t <;>
      simp [UnpackedFloat.compare, ofUnpacked, Parts.comparand?, isNegative] <;> omega
  all_goals first
    | exact absurd ‹0 < 0› (Nat.lt_irrefl 0)
    | cases s <;> cases t <;>
        simp [UnpackedFloat.compare, ofUnpacked, Parts.comparand?, isNegative, compare]
    | simp [UnpackedFloat.compare, ofUnpacked, Parts.comparand?]

/-- Numbers are equal that count as the same. -/
theorem beq_iff {x y : Float}
    : (x == y) = true
      ↔ ∃ counted, (parts x).comparand? = some counted ∧ (parts y).comparand? = some counted := by
  rw [parts_eq_ofUnpacked, parts_eq_ofUnpacked, ← compare_eq_iff]
  change (x.toModel.unpack.compare y.toModel.unpack == some .eq) = true ↔ _
  rw [beq_iff_eq]

theorem isNaN_iff {x : Float} : x.isNaN = true ↔ (parts x).comparand? = none := by
  rw [parts_eq_ofUnpacked]
  change x.toModel.unpack.isNaN = true ↔ _
  rcases x.toModel.unpack with s | _ | s | ⟨s, _ | m, e, positive⟩ <;>
    simp [UnpackedFloat.isNaN, ofUnpacked, Parts.comparand?] at *

theorem beq_symm {x y : Float} (equal : (x == y) = true) : (y == x) = true := by
  obtain ⟨counted, left, right⟩ := beq_iff.mp equal
  exact beq_iff.mpr ⟨counted, right, left⟩

theorem beq_trans {x y z : Float} (first : (x == y) = true) (second : (y == z) = true)
    : (x == z) = true := by
  obtain ⟨counted, left, middle⟩ := beq_iff.mp first
  obtain ⟨same, again, right⟩ := beq_iff.mp second
  obtain rfl := Option.some.inj (again.symm.trans middle)
  exact beq_iff.mpr ⟨_, left, right⟩

/-- Every number but NaN is equal to itself. -/
theorem beq_self {x : Float} : (x == x) = true ↔ x.isNaN = false := by
  rw [beq_iff, ← Bool.not_eq_true, isNaN_iff]
  cases (parts x).comparand? <;> simp

-----------------------------------------------------------------------------------------
-- Positive integers
-----------------------------------------------------------------------------------------

/-- The whole number that a significand and a scale make, if they make one. -/
theorem magnitude_eq_some {significand scale places n : Nat}
    : (if places ≤ scale then some (significand * 2 ^ (scale - places))
        else if significand % 2 ^ (places - scale) = 0 then
          some (significand / 2 ^ (places - scale))
        else none) = some n
      ↔ significand * 2 ^ scale = n * 2 ^ places := by
  split
  · rename_i above
    have split : 2 ^ scale = 2 ^ (scale - places) * 2 ^ places := by
      rw [← Nat.pow_add, Nat.sub_add_cancel above]
    rw [Option.some_inj, split, ← Nat.mul_assoc, Nat.mul_left_inj (Nat.two_pow_pos _).ne']
  · rename_i below
    have split : 2 ^ places = 2 ^ (places - scale) * 2 ^ scale := by
      rw [← Nat.pow_add, Nat.sub_add_cancel (by omega)]
    rw [split, ← Nat.mul_assoc, Nat.mul_left_inj (Nat.two_pow_pos _).ne']
    have positive : 0 < 2 ^ (places - scale) := Nat.two_pow_pos _
    split
    · rename_i whole
      rw [Option.some_inj, Nat.div_eq_iff_eq_mul_left positive (Nat.dvd_of_mod_eq_zero whole)]
    · rename_i broken
      refine iff_of_false (by simp) fun product => broken ?_
      rw [product, Nat.mul_mod_left]

/-- The integer that a number is by its significand and its scale. -/
theorem toInt?_eq_some {x : Float} {negative : Bool} {significand scale : Nat} {whole : Int}
    (finite : parts x = .finite negative significand (scale - places))
    : toInt? x = some whole
      ↔ ∃ n : Nat, significand * 2 ^ scale = n * 2 ^ places
          ∧ whole = if negative then -(n : Int) else n := by
  have above : (0 : Int) ≤ scale - places ↔ places ≤ scale := by omega
  have up : ((scale : Int) - places).toNat = scale - places := by omega
  have down : (-((scale : Int) - places)).toNat = places - scale := by omega
  rw [toInt?, finite]
  simp only [Option.map_eq_some_iff, Option.bind_eq_bind, Option.bind_eq_some_iff, Option.pure_def,
    Option.some_inj, above, up, down, Nat.pow_eq, magnitude_eq_some]
  constructor
  · rintro ⟨_, ⟨n, product, rfl⟩, rfl⟩
    exact ⟨n, product, rfl⟩
  · rintro ⟨n, product, rfl⟩
    exact ⟨n, ⟨n, product, rfl⟩, rfl⟩

/-- The positive integer that a number is: it makes its significand with the sign off. -/
theorem toIndex?_eq_some {x : Float} {n : Nat}
    : toIndex? x = some n
      ↔ 0 < n ∧ ∃ significand scale : Nat,
          parts x = .finite false significand (scale - places)
            ∧ significand * 2 ^ scale = n * 2 ^ places := by
  constructor
  · intro index
    unfold toIndex? at index
    rcases found : toInt? x with _ | whole
    · simp [found] at index
    · rcases taken : parts x with _ | _ | ⟨negative, significand, exponent⟩
      · simp [toInt?, taken] at found
      · simp [toInt?, taken] at found
      · obtain ⟨scale, rfl, -⟩ := parts_canonical taken
        obtain ⟨magnitude, product, rfl⟩ := (toInt?_eq_some taken).mp found
        simp only [found] at index
        cases negative with
        | true => simp at index; omega
        | false =>
            simp only [Bool.false_eq_true, if_false, Option.ite_none_right_eq_some,
              Option.some_inj, Int.toNat_natCast] at index
            obtain ⟨positive, rfl⟩ := index
            exact ⟨by omega, significand, scale, rfl, product⟩
  · rintro ⟨positive, significand, scale, finite, product⟩
    have whole : toInt? x = some (n : Int) := (toInt?_eq_some finite).mpr ⟨n, product, rfl⟩
    have bound : (1 : Int) ≤ n := by omega
    simp [toIndex?, whole, bound]

/-- Canonical forms of one positive number are the same. -/
theorem canonical_unique {a b left right : Nat} (product : a * 2 ^ left = b * 2 ^ right)
    (small : a < 2 * fractionValues) (full : b < fractionValues → right = 0)
    (order : left ≤ right)
    : a = b ∧ left = right := by
  have split : 2 ^ right = 2 ^ (right - left) * 2 ^ left := by
    rw [← Nat.pow_add, Nat.sub_add_cancel order]
  rw [split, ← Nat.mul_assoc, Nat.mul_left_inj (Nat.two_pow_pos _).ne'] at product
  rcases order.eq_or_lt with rfl | above
  · simpa using product
  · -- A longer shift makes the other significand too long.
    have twice : 2 ^ 1 ≤ 2 ^ (right - left) := Nat.pow_le_pow_right (by decide) (by omega)
    have normal : fractionValues ≤ b := by
      by_contra short
      have := full (by omega)
      omega
    have long := Nat.mul_le_mul normal twice
    omega

/-- No two numbers are the same positive integer. -/
theorem beq_of_toIndex? {x y : Float} {n : Nat} (left : toIndex? x = some n)
    (right : toIndex? y = some n)
    : (x == y) = true := by
  obtain ⟨positive, a, s, finite_x, product_x⟩ := toIndex?_eq_some.mp left
  obtain ⟨-, b, t, finite_y, product_y⟩ := toIndex?_eq_some.mp right
  obtain ⟨s', same_s, small_x, full_x⟩ := parts_canonical finite_x
  obtain ⟨t', same_t, small_y, full_y⟩ := parts_canonical finite_y
  have same : parts x = parts y := by
    have product := product_x.trans product_y.symm
    rcases Nat.le_total s t with order | order
    · obtain ⟨rfl, rfl⟩ := canonical_unique product small_x (by omega) order
      rw [finite_x, finite_y]
    · obtain ⟨rfl, rfl⟩ := canonical_unique product.symm small_y (by omega) order
      rw [finite_x, finite_y]
  obtain ⟨counted, counts⟩ : ∃ counted, (parts x).comparand? = some counted := by
    rw [finite_x]
    cases a <;> exact ⟨_, rfl⟩
  exact beq_iff.mpr ⟨counted, counts, same ▸ counts⟩

/-- Equal numbers are the same positive integer, if they are one. -/
theorem toIndex?_congr {x y : Float} (equal : (x == y) = true) : toIndex? x = toIndex? y := by
  have carry {x y : Float} {n : Nat} (equal : (x == y) = true) (index : toIndex? x = some n)
      : toIndex? y = some n := by
    obtain ⟨positive, significand, scale, finite, product⟩ := toIndex?_eq_some.mp index
    obtain ⟨counted, left, right⟩ := beq_iff.mp equal
    have nonzero : significand ≠ 0 := by
      rintro rfl
      have := Nat.mul_pos positive (Nat.two_pow_pos places)
      omega
    obtain ⟨less, rfl⟩ := Nat.exists_eq_succ_of_ne_zero nonzero
    rw [finite] at left
    obtain rfl := Option.some.inj left
    have same : parts y = .finite false (less + 1) (scale - places) := by
      revert right
      rcases parts y with _ | _ | ⟨_, _ | _, _⟩ <;> simp [Parts.comparand?]
    exact toIndex?_eq_some.mpr ⟨positive, _, scale, same, product⟩
  exact Option.ext fun n => ⟨carry equal, carry (beq_symm equal)⟩

/-- The least positive integer that no number is. -/
theorem toIndex?_ne (x : Float) : toIndex? x ≠ some (2 * fractionValues + 1) := by
  intro index
  obtain ⟨-, significand, scale, finite, product⟩ := toIndex?_eq_some.mp index
  obtain ⟨scale', same, small, -⟩ := parts_canonical finite
  rcases Nat.lt_or_ge places scale with above | below
  · have split : 2 ^ scale = 2 * 2 ^ (scale - places - 1) * 2 ^ places := by
      rw [← Nat.pow_succ', ← Nat.pow_add]
      congr 1
      omega
    rw [split, ← Nat.mul_assoc, Nat.mul_left_inj (Nat.two_pow_pos _).ne'] at product
    have even := congrArg (· % 2) product
    simp only [Nat.mul_left_comm significand 2, Nat.mul_mod_right] at even
    omega
  · have split : 2 ^ places = 2 ^ (places - scale) * 2 ^ scale := by
      rw [← Nat.pow_add, Nat.sub_add_cancel below]
    rw [split, ← Nat.mul_assoc, Nat.mul_left_inj (Nat.two_pow_pos _).ne'] at product
    have long := Nat.le_mul_of_pos_right (2 * fractionValues + 1) (Nat.two_pow_pos (places - scale))
    omega

end HookMachine.Number
