import HookMachine.Table

/-!
Listing the fields of a table in an order of their keys, which the table itself does not have.
-/

namespace HookMachine

/-- The place of a number in the total order of binary64 numbers, which puts -0 before 0 and
NaN at the ends.
-/
def Number.rank (x : Float) : Int :=
  let bits := x.toBits.toNat
  if bits < signWeight then bits else (signWeight : Int) - bits - 1

namespace Value

/-- Orders handles by slot, then by generation, then by heap. -/
def compareHandles (a b : Handle) : Ordering :=
  (compare a.index b.index).then
    ((compare a.generation.toNat b.generation.toNat).then (compare a.heap b.heap))

/-- The place of a value's kind among the kinds of keys. -/
def kindRank : Value → Nat
  | nil => 0
  | boolean _ => 1
  | number _ => 2
  | string _ => 3
  | table _ => 4
  | closure _ => 5
  | native _ => 6

/-- Orders keys: by kind, and within a kind false before true, numbers by their rank, strings
by code points, references by handle.
-/
def compareKeys (a b : Value) : Ordering :=
  match a, b with
  | boolean x, boolean y => compare x.toNat y.toNat
  | number x, number y => compare (Number.rank x) (Number.rank y)
  | string x, string y => compare x y
  | table x, table y => compareHandles x.handle y.handle
  | closure x, closure y => compareHandles x.handle y.handle
  | native x, native y => compareHandles x.handle y.handle
  | _, _ => compare a.kindRank b.kindRank

end Value

/-- Fields in the order of their keys. -/
def Table.sortFields (fields : List (Value × Value)) : List (Value × Value) :=
  fields.mergeSort fun a b => (Value.compareKeys a.1 b.1).isLE

end HookMachine
