import HookMachine.Number

/-!
Shortest decimal text of a binary64 number: the fewest digits that read back as the number,
the nearest such digits to it, written positionally without an exponent.
-/

namespace HookMachine.Decimal

/-- The interval of reals that round to `significand * 2 ^ exponent`, as quarter units
`2 ^ (exponent - 2)`: below a power of two the spacing halves. Its ends round to the number
iff the significand is even.
-/
structure Interval where
  low : Nat
  centre : Nat
  high : Nat
  closed : Bool

/-- The interval around a finite number with a nonzero significand. -/
def Interval.around (significand : Nat) : Interval where
  low := 4 * significand - if significand = Number.fractionValues then 1 else 2
  centre := 4 * significand
  high := 4 * significand + 2
  closed := significand % 2 = 0

/-- Whether `x`, in the same unit, lies in the interval. -/
def Interval.contains (i : Interval) (x : Nat) : Bool :=
  if i.closed then i.low ≤ x && x ≤ i.high else i.low < x && x < i.high

/-- The interval in a unit smaller by `factor`. -/
def Interval.scale (i : Interval) (factor : Nat) : Interval :=
  { i with low := i.low * factor, centre := i.centre * factor, high := i.high * factor }

/-- The multiple of `10 ^ place` nearest to `significand * 2 ^ exponent` that reads back as
it, as a number of steps `10 ^ place`; a tie goes away from zero.
-/
def onGrid? (significand : Nat) (exponent place : Int) : Option Nat :=
  let quarter := exponent - 2
  -- One unit measures both the interval and the grid step as natural numbers.
  let interval :=
    (Interval.around significand).scale (Nat.pow 2 quarter.toNat * Nat.pow 10 (-place).toNat)
  let step := Nat.pow 2 (-quarter).toNat * Nat.pow 10 place.toNat
  let below := interval.centre / step
  let remainder := interval.centre % step
  let lowFits := interval.contains (below * step)
  let highFits := interval.contains ((below + 1) * step)
  if lowFits && (!highFits || 2 * remainder < step) then
    some below
  else if highFits then
    some (below + 1)
  else
    none

/-- Searches ever finer grids, `fuel` of them, from the step `10 ^ place` down. -/
def search (significand : Nat) (exponent : Int) : Nat → Int → Nat × Int
  | 0, place => (0, place)
  | fuel + 1, place =>
      match onGrid? significand exponent place with
      | some steps => (steps, place)
      | none => search significand exponent fuel (place - 1)

/-- The number of digits before the decimal point, zero or less for small fractions: the
least `p` with `significand * 2 ^ exponent < 10 ^ p`. No binary64 number but zero lies
below `10 ^ -400`.
-/
def magnitude (significand : Nat) (exponent : Int) : Int :=
  let scaled :=
    significand * Nat.pow 2 exponent.toNat * Nat.pow 10 400 / Nat.pow 2 (-exponent).toNat
  ((Nat.toDigits 10 scaled).length : Int) - 400

/-- Fewest digits that read back as `significand * 2 ^ exponent`, as `digits * 10 ^ place`.
Seventeen digits always suffice.
-/
def shortest (significand : Nat) (exponent : Int) : Nat × Int :=
  search significand exponent 18 (magnitude significand exponent - 1)

/-- The digits of `digits * 10 ^ place` around a decimal point, without trailing zeros after
the point.
-/
def positional (digits : Nat) (place : Int) : String :=
  if 0 ≤ place then
    toString (digits * Nat.pow 10 place.toNat)
  else
    let scale := Nat.pow 10 (-place).toNat
    let whole := toString (digits / scale)
    let fraction := Nat.toDigits 10 (digits % scale)
    let padded := List.replicate ((-place).toNat - fraction.length) '0' ++ fraction
    let trimmed := (padded.reverse.dropWhile (· = '0')).reverse
    if trimmed.isEmpty then whole else whole ++ "." ++ String.ofList trimmed

/-- Text of a number: zero shows no sign, and there is no exponent however long the text. -/
def text (x : Float) : String :=
  match Number.parts x with
  | .nan => "NaN"
  | .infinite negative => if negative then "-inf" else "inf"
  | .finite negative significand exponent =>
      if significand = 0 then
        "0"
      else
        let (digits, place) := shortest significand exponent
        (if negative then "-" else "") ++ positional digits place

end HookMachine.Decimal
