import HookMachine.Text.Blank

/-!
Reading binary64 numbers from decimal text: an optional sign, then a name (`inf`,
`infinity`, `nan`, in any case) or digits with an optional fraction and an optional exponent.
-/

namespace HookMachine.Decimal

/-- What a digit counts. -/
def digit (c : Char) : Nat :=
  c.toNat - '0'.toNat

/-- The number that digits spell. -/
def natural (digits : List Char) : Nat :=
  digits.foldl (fun n c => 10 * n + digit c) 0

/-- At least one character, and digits only. -/
def isNumeral (cs : List Char) : Bool :=
  !cs.isEmpty && cs.all Char.isDigit

/-- A nonempty run of digits as a number. -/
def digits? (cs : List Char) : Option Nat :=
  if isNumeral cs then some (natural cs) else none

/-- Splits a sign off: whether it was a minus, and the rest. -/
def splitSign : List Char → Bool × List Char
  | '+' :: cs => (false, cs)
  | '-' :: cs => (true, cs)
  | cs => (false, cs)

/-- An exponent that has come this far takes no more digits. -/
def exponentBound : Nat := 65536

/-- The size of an exponent. Digits behind the one that reaches `exponentBound` are passed
over, so the size stays below `10 * exponentBound` however long it is written. Only numerals
of tens of thousands of digits can tell: any shorter one is out of range either way.
-/
def exponentSize (digits : List Char) : Nat :=
  digits.foldl (fun n c => if n < exponentBound then 10 * n + digit c else n) 0

/-- The exponent written after the digits: `e` or `E`, an optional sign and digits. -/
def exponent? : List Char → Option Int
  | [] => some 0
  | c :: cs =>
      if c = 'e' ∨ c = 'E' then
        let (negative, cs) := splitSign cs
        if isNumeral cs then
          some (if negative then -(exponentSize cs : Int) else exponentSize cs)
        else
          none
      else
        none

/-- So many digits settle which number is nearest, up to a tie: a number halfway between two
neighbours of the format has at most 767 digits, leading zeros apart.
-/
def decisiveDigits : Nat := 800

/-- Digits and an exponent to the same nearest number, without leading zeros and with at most
one digit more than `decisiveDigits`. That one stands for all that follow: it is zero only if
they are, so it keeps the number on its side of every halfway point.
-/
def significant (digits : List Char) (exponent : Int) : List Char × Int :=
  let digits := digits.dropWhile (· = '0')
  match digits.drop decisiveDigits with
  | [] => (digits, exponent)
  | c :: rest =>
      let last := if (c :: rest).all (· = '0') then '0' else '1'
      (digits.take decisiveDigits ++ [last], exponent + rest.length)

/-- The number nearest to `mantissa * 10 ^ exponent`, where `mantissa` has at most `length`
digits. Numbers beyond `10 ^ 400` are infinite and those below `10 ^ -400` zero, which
keeps the powers small.
-/
def nearest (mantissa length : Nat) (exponent : Int) : Float :=
  if mantissa = 0 ∨ exponent + length < -400 then
    0.0
  else if 400 < exponent then
    1.0 / 0.0
  else if 0 ≤ exponent then
    Float.ofScientific mantissa false exponent.toNat
  else
    Float.ofScientific mantissa true (-exponent).toNat

/-- A number without its sign and not given by a name. -/
def unsigned? (cs : List Char) : Option Float :=
  let whole := cs.takeWhile Char.isDigit
  let rest := cs.dropWhile Char.isDigit
  let (fraction, rest) :=
    match rest with
    | '.' :: rest => (rest.takeWhile Char.isDigit, rest.dropWhile Char.isDigit)
    | _ => ([], rest)
  if whole.isEmpty && fraction.isEmpty then
    none
  else
    (exponent? rest).map fun exponent =>
      let (digits, exponent) := significant (whole ++ fraction) (exponent - fraction.length)
      nearest (natural digits) digits.length exponent

/-- The number that `cs` spells, without blanks around it. -/
def read? (cs : List Char) : Option Float :=
  let (negative, rest) := splitSign cs
  let magnitude :=
    match String.ofList (rest.map Char.toLower) with
    | "inf" | "infinity" => some (1.0 / 0.0)
    | "nan" => some (0.0 / 0.0)
    | _ => unsigned? rest
  magnitude.map fun x => if negative then -x else x

end HookMachine.Decimal
