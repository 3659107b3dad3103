import HookMachine.Proofs.Number.Canonical

/-!
Numbers are made up of their parts. So numbers that are equal are the same, except for the two
zeros.
-/

namespace HookMachine.Number

-----------------------------------------------------------------------------------------
-- Numbers from their parts
-----------------------------------------------------------------------------------------

/-- The bits of the number that has parts; NaN has no parts to tell them from. -/
def Parts.bits : Parts → Nat
  | .nan => 0
  | .infinite negative => signWeight * negative.toNat + (exponentValues - 1) * fractionValues
  | .finite negative significand exponent =>
      signWeight * negative.toNat + (exponent + 1074).toNat * fractionValues + significand

theorem toNat_sign (x : Float)
    : (decide (x.toBits.toNat / signWeight = 1)).toNat = x.toBits.toNat / signWeight := by
  have bound : x.toBits.toNat / signWeight < 2 := Nat.div_lt_of_lt_mul x.toBits.toNat_lt
  generalize x.toBits.toNat / signWeight = sign at bound ⊢
  interval_cases sign <;> rfl

/-- The bits of a number stand in its parts. -/
theorem toNat_toBits {x : Float} (real : parts x ≠ .nan) : x.toBits.toNat = (parts x).bits := by
  have sign := toNat_sign x
  unfold parts at real ⊢
  dsimp only at real ⊢
  split at real
  · rename_i top
    split at real
    · rename_i whole
      rw [if_pos top, if_pos whole, Parts.bits, sign]
      unfold fractionValues exponentValues signWeight at *
      omega
    · exact absurd rfl real
  · rename_i below
    split at real
    · rename_i least
      rw [if_neg below, if_pos least, Parts.bits, sign]
      unfold fractionValues exponentValues signWeight at *
      omega
    · rename_i normal
      rw [if_neg below, if_neg normal, Parts.bits, sign]
      unfold fractionValues exponentValues signWeight at *
      omega

/-- A number is its parts, unless it is NaN. -/
theorem eq_of_parts {x y : Float} (same : parts x = parts y) (real : parts x ≠ .nan) : x = y := by
  have bits : x.toBits = y.toBits := by
    apply UInt64.toNat_inj.mp
    rw [toNat_toBits real, toNat_toBits (same ▸ real), same]
  obtain ⟨⟨word, valid⟩⟩ := x
  obtain ⟨⟨other, valid'⟩⟩ := y
  obtain rfl : word = other := bits
  rfl

/-- Whether a number is the zero with a sign. -/
def IsZero (negative : Bool) (x : Float) : Prop :=
  parts x = .finite negative 0 (-1074)

theorem isZero_of_parts {x : Float} {negative : Bool} {exponent : Int}
    (zero : parts x = .finite negative 0 exponent)
    : IsZero negative x := by
  obtain ⟨scale, rfl, -, least⟩ := parts_canonical zero
  obtain rfl := least (by decide)
  rw [IsZero, zero, places]
  rfl

/-- A number counts as zero if it is one of both signs, and else as itself. -/
theorem Parts.counts {p counted : Parts} (counts : p.comparand? = some counted)
    : (∃ negative exponent, p = .finite negative 0 exponent) ∧ counted = .finite false 0 0
      ∨ p = counted := by
  rcases p with _ | negative | ⟨negative, _ | less, exponent⟩
  · cases counts
  · exact .inr (Option.some.inj counts)
  · exact .inl ⟨⟨negative, exponent, rfl⟩, (Option.some.inj counts).symm⟩
  · exact .inr (Option.some.inj counts)

/-- Equal numbers are the same, unless they are the zeros of both signs. -/
theorem eq_or_isZero {x y : Float} (equal : (x == y) = true)
    : x = y ∨ ∃ negative, IsZero (!negative) x ∧ IsZero negative y := by
  obtain ⟨counted, left, right⟩ := beq_iff.mp equal
  have zero {z : Float} (counts : (parts z).comparand? = some (.finite false 0 0))
      : ∃ negative, IsZero negative z := by
    rcases Parts.counts counts with ⟨⟨negative, exponent, zero⟩, -⟩ | zero
    · exact ⟨negative, isZero_of_parts zero⟩
    · exact ⟨false, isZero_of_parts zero⟩
  by_cases same : parts x = parts y
  · refine .inl (eq_of_parts same fun nan => ?_)
    rw [nan] at left
    cases left
  · right
    have isZero : counted = .finite false 0 0 := by
      rcases Parts.counts left with ⟨-, zero⟩ | first
      · exact zero
      · rcases Parts.counts right with ⟨-, zero⟩ | second
        · exact zero
        · exact absurd (first.trans second.symm) same
    obtain rfl := isZero
    obtain ⟨s, zeroX⟩ := zero left
    obtain ⟨t, zeroY⟩ := zero right
    refine ⟨t, ?_, zeroY⟩
    have apart : s ≠ t := by
      rintro rfl
      exact same (zeroX.trans zeroY.symm)
    rwa [← Bool.eq_not_of_ne apart]

end HookMachine.Number
