import HookMachine.Execution.Invoke

/-!
Reading and writing fields as code does: a metatable can send the access on to another object
or to a function.
-/

namespace HookMachine.Vm

/-- How many tables one access may visit. -/
def maxChain : Nat := 100

/-- The metamethod of a table, nil without one. -/
def handler (t : Table) (name : String) : Vm Value := do
  match t.metatable with
  | none => return .nil
  | some mt => return .orNil ((← table mt).field? name)

/-- The metamethod of a value; only tables have any. -/
def metamethod (value : Value) (name : String) : Vm Value := do
  match value with
  | .table ref => handler (← table ref) name
  | _ => return .nil

/-- Reads a field along at most `limit` tables. -/
def indexChain (invoke : Invoke) (key : Value) (depth : Nat) (limit : Nat) (object : Value)
    : Vm Value :=
  match limit with
  | 0 => fail .readChain
  | limit + 1 =>
      match object with
      | .table ref => do
          let t ← table ref
          match t.get? key with
          | some value => return value
          | none =>
              let next ← handler t "__index"
              if next.isNil then
                return .nil
              else if next.isFunction then
                let results ← invoke next [object, key] none (depth + 1)
                return results.headD .nil
              else
                indexChain invoke key depth limit next
      | other => fail (.misuse .index other.kind)

/-- Reads a field of an object at a call depth. -/
def index (invoke : Invoke) (object key : Value) (depth : Nat) : Vm Value :=
  indexChain invoke key depth maxChain object

/-- The metamethod that the write of a key goes to; nil where the table has the key. -/
def writeHandler (t : Table) (key : Value) : Vm Value :=
  if (t.get? key).isSome then pure .nil else handler t "__newindex"

/-- Writes a field along at most `limit` tables. -/
def assignChain (invoke : Invoke) (key value : Value) (depth : Nat) (limit : Nat)
    (object : Value) : Vm Unit :=
  match limit with
  | 0 => fail .writeChain
  | limit + 1 =>
      match object with
      | .table ref => do
          checkOwner value
          let t ← table ref
          let next ← writeHandler t key
          if next.isNil then
            if t.readOnly then
              fail .readOnly
            updateTable ref (·.set key value)
          else if next.isFunction then
            let _ ← invoke next [object, key, value] none (depth + 1)
          else
            assignChain invoke key value depth limit next
      | other => fail (.misuse .index other.kind)

/-- Writes a field of an object at a call depth. -/
def assign (invoke : Invoke) (object key value : Value) (depth : Nat) : Vm Unit := do
  checkKey key
  assignChain invoke key value depth maxChain object

end HookMachine.Vm
