/-!
The operations of the machine and their numbers.
-/

namespace HookMachine

/-- The operations, in the order of their numbers. -/
inductive Opcode where
  | move
  | loadK
  | loadBool
  | loadNil
  | getUpval
  | getGlobal
  | getTable
  | setGlobal
  | setUpval
  | setTable
  | newTable
  | self
  | add
  | sub
  | mul
  | div
  | mod
  | pow
  | unm
  | not
  | len
  | concat
  | jmp
  | eq
  | lt
  | le
  | test
  | testSet
  | call
  | tailCall
  | ret
  | forLoop
  | forPrep
  | tForLoop
  | setList
  | close
  | closure
  | vararg
deriving DecidableEq, Inhabited, Repr

namespace Opcode

/-- Every operation, at the position of its number. -/
def all : Array Opcode :=
  #[move, loadK, loadBool, loadNil, getUpval, getGlobal, getTable, setGlobal, setUpval, setTable,
    newTable, self, add, sub, mul, div, mod, pow, unm, not, len, concat, jmp, eq, lt, le, test,
    testSet, call, tailCall, ret, forLoop, forPrep, tForLoop, setList, close, closure, vararg]

/-- The number of an operation. -/
def code (op : Opcode) : Nat :=
  op.ctorIdx

/-- The operation with a number; the numbers from 38 on have none. -/
def ofCode? (n : Nat) : Option Opcode :=
  all[n]?

/-- No operation is missing from the list, and each stands at its own number. -/
theorem ofCode?_code (op : Opcode) : ofCode? op.code = some op := by
  cases op <;> rfl

end Opcode
end HookMachine
