import HookMachine.Arena
import HookMachine.Decimal.Shortest
import HookMachine.Decimal.Reading

/-!
Values of the machine: plain data, and references to tables, closures and natives by handle.
-/

namespace HookMachine

/-- Reference to a table. -/
structure TableRef where
  handle : Handle
deriving DecidableEq, Inhabited, Repr

/-- Reference to a closure over bytecode. -/
structure ClosureRef where
  handle : Handle
deriving DecidableEq, Inhabited, Repr

/-- Reference to a host function. -/
structure NativeRef where
  handle : Handle
deriving DecidableEq, Inhabited, Repr

/-- Reference to an object of any kind. -/
inductive ObjectRef where
  | table (ref : TableRef)
  | closure (ref : ClosureRef)
  | native (ref : NativeRef)
deriving DecidableEq, Inhabited, Repr

/-- What a register, a table field or a constant holds. -/
inductive Value where
  | nil
  | boolean (b : Bool)
  | number (x : Float)
  | string (s : String)
  | table (ref : TableRef)
  | closure (ref : ClosureRef)
  | native (ref : NativeRef)
deriving Inhabited

/-- The kinds of values that scripts can tell apart. -/
inductive Kind where
  | nil
  | boolean
  | number
  | string
  | table
  | function
deriving DecidableEq, Repr

/-- The name of a kind. -/
def Kind.name : Kind → String
  | .nil => "nil"
  | .boolean => "boolean"
  | .number => "number"
  | .string => "string"
  | .table => "table"
  | .function => "function"

namespace Value

/-- The kind of a value; closures and natives are both functions. -/
def kind : Value → Kind
  | nil => .nil
  | boolean _ => .boolean
  | number _ => .number
  | string _ => .string
  | table _ => .table
  | closure _ | native _ => .function

/-- Equality as scripts see it: numbers by the floating-point rules, so a NaN differs from
itself and the zeros are equal; references by identity.
-/
def equal : Value → Value → Bool
  | nil, nil => true
  | boolean a, boolean b => a == b
  | number a, number b => a == b
  | string a, string b => a == b
  | table a, table b => a == b
  | closure a, closure b => a == b
  | native a, native b => a == b
  | _, _ => false

instance : BEq Value := ⟨equal⟩

/-- Every value but nil and false counts as true. -/
def isTruthy : Value → Bool
  | nil | boolean false => false
  | _ => true

/-- Whether the value is nil. -/
def isNil : Value → Bool
  | nil => true
  | _ => false

/-- Whether the value is a closure or a native. -/
def isFunction : Value → Bool
  | closure _ | native _ => true
  | _ => false

/-- The object that the value refers to. -/
def object? : Value → Option ObjectRef
  | table ref => some (.table ref)
  | closure ref => some (.closure ref)
  | native ref => some (.native ref)
  | _ => none

/-- The arena handle behind a reference. -/
def handle? : Value → Option Handle
  | table ref => some ref.handle
  | closure ref => some ref.handle
  | native ref => some ref.handle
  | _ => none

/-- Whether the value is compared by identity. -/
def isReference (v : Value) : Bool :=
  v.handle?.isSome

/-- The number that the value is, or that its text spells between blanks. -/
def toNumber? : Value → Option Float
  | number x => some x
  | string s => Decimal.read? (Text.trim s.toList)
  | _ => none

/-- The table that the value refers to. -/
def toTable? : Value → Option TableRef
  | table ref => some ref
  | _ => none

/-- The string that the value is. -/
def toString? : Value → Option String
  | string s => some s
  | _ => none

/-- A count as a number. -/
def ofNat (n : Nat) : Value :=
  .number n.toFloat

/-- The value, or nil where there is none. -/
def orNil (v : Option Value) : Value :=
  v.getD nil

/-- Text of a value: a reference shows its slot in hexadecimal. -/
def text : Value → String
  | nil => "nil"
  | boolean b => if b then "true" else "false"
  | number x => Decimal.text x
  | string s => s
  | table ref => "table: 0x" ++ hex ref.handle
  | closure ref => "function: 0x" ++ hex ref.handle
  | native ref => "function: builtin: 0x" ++ hex ref.handle
where
  hex (h : Handle) : String := String.ofList (Nat.toDigits 16 h.index)

/-- Whether the value can be a key of a table field written by a script. -/
def isKey : Value → Bool
  | nil => false
  | number x => !x.isNaN
  | _ => true

end Value

/-- The value that refers to an object. -/
def ObjectRef.toValue : ObjectRef → Value
  | table ref => .table ref
  | closure ref => .closure ref
  | native ref => .native ref

end HookMachine
