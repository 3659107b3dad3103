import HookMachine.Value

/-!
Tables. Positive integer keys that follow each other from 1 live in the array part, every
other key in the hash part, and the two parts never hold one key twice.
-/

namespace HookMachine

/-- A table: its fields in two parts, an optional metatable and a write protection. -/
structure Table where
  /-- The values of the keys 1, 2, …; nil marks a hole. -/
  array : Array Value := #[]
  /-- All other fields, with keys pairwise different. -/
  hash : List (Value × Value) := []
  metatable : Option TableRef := none
  readOnly : Bool := false
  /-- Set while a collection runs that has reached the table. -/
  marked : Bool := false
deriving Inhabited

namespace Table

/-- The positive integer that a key is. -/
def index? : Value → Option Nat
  | .number x => Number.toIndex? x
  | _ => none

/-- The value stored in the hash part under a key equal to `key`. -/
def lookup (key : Value) (hash : List (Value × Value)) : Option Value :=
  (hash.find? fun field => field.1 == key).map (·.2)

/-- Stores a value in the hash part; an equal key that is already there stays as it is. -/
def store (key value : Value) : List (Value × Value) → List (Value × Value)
  | [] => [(key, value)]
  | field :: rest =>
      if field.1 == key then (field.1, value) :: rest else field :: store key value rest

/-- Takes the field under a key equal to `key` out of the hash part. -/
def erase (key : Value) (hash : List (Value × Value)) : List (Value × Value) :=
  hash.filter fun field => !(field.1 == key)

/-- The value of a key, disregarding metatables. -/
def get? (t : Table) (key : Value) : Option Value :=
  match index? key with
  | some n =>
      if n ≤ t.array.size then
        (t.array[n - 1]?).filter fun v => !v.isNil
      else
        lookup key t.hash
  | none => lookup key t.hash

/-- The value of a string key. -/
def field? (t : Table) (name : String) : Option Value :=
  lookup (.string name) t.hash

/-- The value stored in the hash part under the positive integer `n`. -/
def lookupIndex (n : Nat) (hash : List (Value × Value)) : Option Value :=
  (hash.find? fun field => index? field.1 == some n).map (·.2)

/-- Moves fields from the hash part to the end of the array part while the next index is
there; each move shortens the hash part, so `fuel` as long as it suffices.
-/
def absorb : Nat → Table → Table
  | 0, t => t
  | fuel + 1, t =>
      let next := t.array.size + 1
      match lookupIndex next t.hash with
      | none => t
      | some value =>
          absorb fuel
            { t with
              array := t.array.push value
              hash := t.hash.filter fun field => index? field.1 != some next }

/-- Writes a field of the hash part; nil takes it out. -/
def setHash (t : Table) (key value : Value) : Table :=
  if value.isNil then
    { t with hash := erase key t.hash }
  else
    { t with hash := store key value t.hash }

/-- Sets the value of a key, disregarding metatables and write protection. A value just
past the array part extends it, nil at its end shortens it.
-/
def set (t : Table) (key value : Value) : Table :=
  match index? key with
  | none => t.setHash key value
  | some n =>
      if n = t.array.size + 1 ∧ ¬value.isNil then
        absorb t.hash.length { t with array := t.array.push value }
      else if n ≤ t.array.size then
        { t with array := (t.array.setIfInBounds (n - 1) value).popWhile Value.isNil }
      else
        t.setHash key value

/-- The number of array slots. -/
def length (t : Table) : Nat :=
  t.array.size

/-- Whether no key has a value. -/
def isEmpty (t : Table) : Bool :=
  t.array.isEmpty && t.hash.isEmpty

/-- Every key with its value. -/
def entries (t : Table) : List (Value × Value) :=
  let indexed := (List.range t.array.size).map fun i => (Value.ofNat (i + 1), t.array.getD i .nil)
  (indexed.filter fun field => !field.2.isNil) ++ t.hash

end Table
end HookMachine
