/-!
Binary64 numbers taken apart. A finite number is `±significand * 2 ^ exponent`; whether it
is an integer, and which, is read off these parts exactly.
-/

namespace HookMachine.Number

/-- What a binary64 number is. -/
inductive Parts where
  | nan
  | infinite (negative : Bool)
  /-- The number `±significand * 2 ^ exponent`. -/
  | finite (negative : Bool) (significand : Nat) (exponent : Int)
deriving DecidableEq, Repr

/-- How many values the fraction field of 52 bits takes. -/
def fractionValues : Nat := 0x10000000000000

/-- How many values the exponent field of 11 bits takes; the last is kept for infinities and
NaN.
-/
def exponentValues : Nat := 0x800

/-- The weight of the sign bit. -/
def signWeight : Nat := 0x8000000000000000

/-- Reads sign, exponent and fraction off the bits of `x`. -/
def parts (x : Float) : Parts :=
  let bits := x.toBits.toNat
  let negative := decide (bits / signWeight = 1)
  let biased : Nat := bits / fractionValues % exponentValues
  let fraction : Nat := bits % fractionValues
  if biased = exponentValues - 1 then
    if fraction = 0 then .infinite negative else .nan
  else if biased = 0 then
    .finite negative fraction (-1074)
  else
    .finite negative (fractionValues + fraction) ((biased : Int) - 1075)

/-- The integer that `x` is, if it is one. -/
def toInt? (x : Float) : Option Int :=
  match parts x with
  | .finite negative significand exponent =>
      let magnitude : Option Nat :=
        if 0 ≤ exponent then
          some (significand * Nat.pow 2 exponent.toNat)
        else if significand % Nat.pow 2 (-exponent).toNat = 0 then
          some (significand / Nat.pow 2 (-exponent).toNat)
        else
          none
      magnitude.map fun n => if negative then -(n : Int) else n
  | _ => none

/-- The positive integer that `x` is, if it is one: the numbers that can index an array part. -/
def toIndex? (x : Float) : Option Nat :=
  match toInt? x with
  | some n => if 1 ≤ n then some n.toNat else none
  | none => none

/-- Puts `n` into the range of signed 64-bit words, to its nearer end if it lies outside. -/
def clamp64 (n : Int) : Int :=
  max Int64.minValue.toInt (min n Int64.maxValue.toInt)

/-- Remainder of a division rounded down: it has the sign of `b`. -/
def modulo (a b : Float) : Float :=
  a - (a / b).floor * b

end HookMachine.Number
