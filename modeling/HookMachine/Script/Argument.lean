import HookMachine.Machine

/-!
Arguments of the functions that scripts call, and tables as results.
-/

namespace HookMachine.Script

/-- The argument at a position that counts from 0; missing ones are nil. -/
def argument (arguments : List Value) (i : Nat) : Value :=
  arguments.getD i .nil

/-- An argument other than nil. -/
def required (arguments : List Value) (i : Nat) (what : String) : Action Value :=
  match argument arguments i with
  | .nil => Action.refuse (.missing what)
  | value => pure value

/-- An integer argument, put into the range of signed 64-bit words. -/
def integer (arguments : List Value) (i : Nat) (what : String) : Action Int :=
  let value := argument arguments i
  let refused := Action.refuse (.needs what .integer value.kind)
  match value with
  | .number x =>
      match Number.toInt? x with
      | some n => pure (Number.clamp64 n)
      | none => refused
  | _ => refused

/-- A string argument. -/
def string (arguments : List Value) (i : Nat) (what : String) : Action String :=
  match argument arguments i with
  | .string s => pure s
  | other => Action.refuse (.needs what .string other.kind)

/-- A table argument of an operation. -/
def table (arguments : List Value) (i : Nat) (operation : String) : Action TableRef :=
  match argument arguments i with
  | .table ref => pure ref
  | other => Action.refuse (.needs operation .table other.kind)

/-- Writes values under consecutive integers from `start` on. -/
def fillList (ref : TableRef) (start : Nat) : List Value → Vm Unit
  | [] => pure ()
  | value :: rest => do
      Vm.rawSet ref (.ofNat start) value
      fillList ref (start + 1) rest

/-- A new table that lists values from 1 on. -/
def listTable (values : List Value) : Vm TableRef := do
  let ref ← Vm.newTable
  fillList ref 1 values
  return ref

/-- Writes named fields in order. -/
def setFields (ref : TableRef) : List (String × Value) → Vm Unit
  | [] => pure ()
  | (name, value) :: rest => do
      Vm.rawSet ref (.string name) value
      setFields ref rest

/-- A new table that describes a prototype. -/
def infoTable (info : PrototypeInfo) : Vm TableRef := do
  let ref ← Vm.newTable
  setFields ref
    [("name", .orNil (info.name.map .string)),
      ("param_count", .ofNat info.parameters),
      ("is_vararg", .boolean info.variadic),
      ("constant_count", .ofNat info.constants),
      ("nested_count", .ofNat info.nested),
      ("upvalue_count", .ofNat info.upvalues),
      ("line_defined", .ofNat info.line)]
  return ref

/-- Puts the methods of a connection into its handle. -/
def setMethods (ref : TableRef) (index : Nat) : List ConnectionMethod → Vm Unit
  | [] => pure ()
  | m :: rest => do
      let native ← Vm.newNative { name := m.name, body := .method m index ref }
      Vm.rawSet ref (.string m.name) (.native native)
      setMethods ref index rest

/-- A new table through which scripts handle a connection. -/
def connectionTable (index : Nat) : Vm TableRef := do
  let ref ← Vm.newTable
  let signal := (ConnectionRegistry.info? (← get).connections index).map fun info => info.signal
  setFields ref [("Index", .ofNat index), ("Signal", .orNil (signal.map .string))]
  setMethods ref index ConnectionMethod.all
  return ref

/-- What a refusal calls a field of criteria. -/
def criterionLabel (name : String) : String :=
  s!"filter field '{name}'"

/-- The count in a field of criteria, if the field is set. -/
def countCriterion (ref : TableRef) (name : String) : Action (Option Nat) := do
  let value ← Vm.rawGet ref (.string name)
  let refused := Action.refuse (.needs (criterionLabel name) .count value.kind)
  match value with
  | .nil => return none
  | .number x =>
      match Number.toInt? x with
      | some n => if 0 ≤ n then return some n.toNat else refused
      | none => refused
  | _ => refused

/-- The values that a field of criteria lists; none if the field is not set. -/
def listCriterion (ref : TableRef) (name : String) : Action (List Value) := do
  match ← Vm.rawGet ref (.string name) with
  | .nil => return []
  | .table items => return (← Vm.table items).array.toList
  | other => Action.refuse (.needs (criterionLabel name) .aTable other.kind)

/-- The criteria that a table spells by its fields. -/
def criteria (ref : TableRef) : Action Criteria := do
  let name := (← Vm.rawGet ref (.string "name")).toString?
  let upvalues ← countCriterion ref "upvalue_count"
  let constants ← countCriterion ref "constant_count"
  let bytecodeOnly := (← Vm.rawGet ref (.string "ignore_host")).isTruthy
  let keys ← listCriterion ref "keys"
  let values ← listCriterion ref "values"
  let metatable := (← Vm.rawGet ref (.string "metatable")).toTable?
  return { name, upvalues, constants, bytecodeOnly, keys, values, metatable }

end HookMachine.Script
