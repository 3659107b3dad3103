import HookMachine.Native
import HookMachine.Table

/-!
The heap of one runtime: arenas of tables, closures and natives, and the values retained
from outside.
-/

namespace HookMachine

/-- Reference to the cell of a captured variable. -/
structure CellRef where
  index : Nat
deriving DecidableEq, Inhabited, Repr

/-- A function over bytecode. -/
structure Closure where
  prototype : PrototypeRef
  /-- The cells of its captured variables, which other closures may share. -/
  upvalues : Array CellRef
  /-- The table behind its globals. -/
  environment : TableRef
  /-- What calls of the closure reach instead of it. -/
  redirect : Option Value := none
  /-- Set while a collection runs that has reached the closure. -/
  marked : Bool := false

/-- All objects of a runtime. -/
structure Heap where
  /-- Stamped into every handle that the heap mints. -/
  id : Nat
  tables : Arena Table
  closures : Arena Closure
  natives : Arena Native
  /-- Values kept alive from outside. -/
  retained : Arena Value

namespace Heap

/-- The heap `id` without any object. -/
def empty (id : Nat) : Heap where
  id
  tables := .empty id
  closures := .empty id
  natives := .empty id
  retained := .empty id

/-- Whether a value is no reference into another heap. -/
def owns (heap : Heap) (value : Value) : Bool :=
  match value.handle? with
  | some handle => handle.heap = heap.id
  | none => true

/-- Whether an object exists. -/
def isLive (heap : Heap) : ObjectRef → Bool
  | .table ref => heap.tables.contains ref.handle
  | .closure ref => heap.closures.contains ref.handle
  | .native ref => heap.natives.contains ref.handle

/-- How many objects and retained values there are. -/
def stats (heap : Heap) : HeapStats where
  tables := heap.tables.size
  closures := heap.closures.size
  natives := heap.natives.size
  retained := heap.retained.size

/-- Every closure and native, then, if asked for, every table. -/
def objects (heap : Heap) (tables : Bool) : List Value :=
  heap.closures.toList.map (fun entry => .closure ⟨entry.1⟩)
    ++ heap.natives.toList.map (fun entry => .native ⟨entry.1⟩)
    ++ if tables then heap.tables.toList.map (fun entry => .table ⟨entry.1⟩) else []

end Heap
end HookMachine
