import HookMachine.Collector
import HookMachine.Identity

/-!
The state of one runtime, and operations on it that may fail. Running code fails with faults,
operations of the host with failures; a run that exhausts its fuel stops apart from both.
-/

namespace HookMachine

/-- Everything a runtime consists of. -/
structure Machine where
  prototypes : PrototypeStore := {}
  /-- Cells of captured variables. -/
  cells : Array Value := #[]
  heap : Heap
  /-- The root globals. -/
  globals : TableRef
  config : Config
  /-- How many entries from the host have not returned yet. -/
  activeCalls : Nat := 0
  /-- Instructions executed since the last entry from the host, where they are limited. -/
  steps : Nat := 0
  /-- The execution context of the caller. -/
  context : ContextRef := ⟨0⟩
  /-- False once the runtime is dropped and only its heap lives on. -/
  alive : Bool := true
  /-- How many guards are out. -/
  guards : Nat := 0
  environments : EnvironmentCache := {}
  hooks : HookRegistry := {}
  connections : ConnectionRegistry := #[]
  identities : IdentityRegistry
  /-- What functions of the host reported, in order. -/
  reports : Array (String × List Value) := #[]

namespace Machine

/-- The machine inside a new entry from the host, which counts instructions anew. -/
def enter (m : Machine) : Machine :=
  { m with activeCalls := m.activeCalls + 1, steps := 0 }

/-- The machine after an entry from the host, with the instruction count from before it. -/
def leave (m : Machine) (steps : Nat) : Machine :=
  { m with activeCalls := m.activeCalls - 1, steps }

end Machine

/-- Why an operation stops: it failed, or its fuel ran out. -/
inductive Halt (ε : Type) where
  | failed (error : ε)
  | outOfFuel

/-- Operations that fail with `ε`. The state that a failing operation leaves stays. -/
abbrev Run (ε : Type) := EStateM (Halt ε) Machine

/-- Operations of running code. -/
abbrev Vm := Run Fault

/-- Operations of the host. -/
abbrev Action := Run Failure

namespace Run

variable {ε ε' α : Type}

/-- Maps the errors of an operation. -/
@[inline]
def mapError (f : ε → ε') (x : Run ε α) : Run ε' α := fun m =>
  match x m with
  | .ok a m => .ok a m
  | .error (.failed e) m => .error (.failed (f e)) m
  | .error .outOfFuel m => .error .outOfFuel m

/-- Goes on with the error of an operation as a value. -/
@[inline]
def attempt (x : Run ε α) : Run ε (Except ε α) := fun m =>
  match x m with
  | .ok a m => .ok (.ok a) m
  | .error (.failed e) m => .ok (.error e) m
  | .error .outOfFuel m => .error .outOfFuel m

/-- Changes the state that an operation leaves when it stops early. -/
@[inline]
def onHalt (x : Run ε α) (undo : Machine → Machine) : Run ε α := fun m =>
  match x m with
  | .ok a m => .ok a m
  | .error e m => .error e (undo m)

end Run

/-- Fails with a fault. -/
def Vm.fail {α : Type} (fault : Fault) : Vm α :=
  throw (.failed fault)

/-- Fails with a refusal. -/
def Action.refuse {α : Type} (refusal : Refusal) : Action α :=
  throw (.failed (.refused refusal))

/-- An operation of the host as running code sees it: its failure is a fault. -/
def Action.toVm {α : Type} (x : Action α) : Vm α :=
  Run.mapError Failure.toFault x

instance : MonadLift Vm Action := ⟨Run.mapError Failure.fault⟩

namespace Vm

/-- The object behind an arena lookup. -/
def found {α : Type} (result : Except Miss α) : Vm α :=
  match result with
  | .ok value => pure value
  | .error miss => fail (.ofMiss miss)

/-- The table behind a reference. -/
def table (ref : TableRef) : Vm Table := do
  found ((← get).heap.tables.get ref.handle)

/-- The closure behind a reference. -/
def closure (ref : ClosureRef) : Vm Closure := do
  found ((← get).heap.closures.get ref.handle)

/-- The native behind a reference. -/
def native (ref : NativeRef) : Vm Native := do
  found ((← get).heap.natives.get ref.handle)

/-- Changes a table that exists. -/
def updateTable (ref : TableRef) (change : Table → Table) : Vm Unit := do
  let _ ← table ref
  modify fun m => { m with heap.tables := m.heap.tables.modify ref.handle change }

/-- Changes a closure that exists. -/
def updateClosure (ref : ClosureRef) (change : Closure → Closure) : Vm Unit := do
  let _ ← closure ref
  modify fun m => { m with heap.closures := m.heap.closures.modify ref.handle change }

/-- Fails for a reference into another heap. -/
def checkOwner (value : Value) : Vm Unit := do
  unless (← get).heap.owns value do
    fail .foreignHandle

/-- Fails for a value that cannot be a key. -/
def checkKey : Value → Vm Unit
  | .nil => fail .nilKey
  | .number x => if x.isNaN then fail .nanKey else pure ()
  | _ => pure ()

/-- Adds an empty table. -/
def newTable : Vm TableRef :=
  modifyGet fun m =>
    let (handle, tables) := m.heap.tables.insert {}
    (⟨handle⟩, { m with heap.tables := tables })

/-- Adds a closure. -/
def newClosure (c : Closure) : Vm ClosureRef :=
  modifyGet fun m =>
    let (handle, closures) := m.heap.closures.insert c
    (⟨handle⟩, { m with heap.closures := closures })

/-- Adds a native. -/
def newNative (n : Native) : Vm NativeRef :=
  modifyGet fun m =>
    let (handle, natives) := m.heap.natives.insert n
    (⟨handle⟩, { m with heap.natives := natives })

/-- Adds a native after checking that the values it keeps alive belong to the heap. -/
def createNative (n : Native) : Vm NativeRef := do
  n.bound.forM checkOwner
  newNative n

/-- Adds a cell holding a value. -/
def newCell (value : Value) : Vm CellRef :=
  modifyGet fun m => (⟨m.cells.size⟩, { m with cells := m.cells.push value })

/-- The value of a captured variable. -/
def readCell (cell : CellRef) : Vm Value := do
  return (← get).cells.getD cell.index .nil

/-- Assigns a captured variable. -/
def writeCell (cell : CellRef) (value : Value) : Vm Unit :=
  modify fun m => { m with cells := m.cells.setIfInBounds cell.index value }

/-- The prototype behind a reference. -/
def prototype (ref : PrototypeRef) : Vm Prototype := do
  return (← get).prototypes.get ref

/-- Adds a prototype. -/
def addPrototype (p : Prototype) : Vm PrototypeRef :=
  modifyGet fun m =>
    let (ref, prototypes) := m.prototypes.insert p
    (ref, { m with prototypes })

/-- Adds as many cells holding nil. -/
def newCells : Nat → Vm (List CellRef)
  | 0 => pure []
  | n + 1 => do
      let cell ← newCell .nil
      return cell :: (← newCells n)

/-- Adds a closure over a prototype whose captured variables start as nil; without an
environment of its own it uses the root globals.
-/
def instantiate (ref : PrototypeRef) (environment : Option TableRef) : Vm ClosureRef := do
  let cells ← newCells (← prototype ref).upvalues.toNat
  let globals := (← get).globals
  newClosure
    { prototype := ref, upvalues := cells.toArray, environment := environment.getD globals }

/-- Reads a field, disregarding metatables. -/
def rawGet (ref : TableRef) (key : Value) : Vm Value := do
  return .orNil ((← table ref).get? key)

/-- Writes a field, disregarding metatables but not the write protection. -/
def rawSet (ref : TableRef) (key value : Value) : Vm Unit := do
  checkKey key
  checkOwner value
  if (← table ref).readOnly then
    fail .readOnly
  updateTable ref (·.set key value)

/-- The metatable of a value; only tables have one. -/
def metatable : Value → Vm (Option TableRef)
  | .table ref => return (← table ref).metatable
  | _ => return none

/-- Gives a table a metatable that exists, or takes it away. -/
def setMetatable (ref : TableRef) (metatable : Option TableRef) : Vm Unit := do
  if let some mt := metatable then
    let _ ← table mt
  updateTable ref fun t => { t with metatable }

/-- Turns the write protection of a table on or off. -/
def setReadOnly (ref : TableRef) (readOnly : Bool) : Vm Unit :=
  updateTable ref fun t => { t with readOnly }

/-- The name of a function: a closure has that of its prototype. -/
def functionName : Value → Vm (Option String)
  | .closure ref => do return (← prototype (← closure ref).prototype).name
  | .native ref => return (← native ref).name
  | _ => return none

/-- Copies a function. The copy of a closure shares its prototype, cells and environment and
has no redirect; that of a native does the same and keeps the same values alive.
-/
def clone (f : Value) : Vm (Option Value) := do
  checkOwner f
  match f with
  | .closure ref =>
      let copy ← newClosure { (← closure ref) with redirect := none, marked := false }
      return some (.closure copy)
  | .native ref =>
      let copy ← newNative { (← native ref) with marked := false }
      return some (.native copy)
  | _ => return none

/-- Sends calls of a closure elsewhere, or back to itself. -/
def setRedirect (ref : ClosureRef) (target : Option Value) : Vm Unit := do
  if let some value := target then
    checkOwner value
  updateClosure ref fun c => { c with redirect := target }

/-- Retains a value. -/
def retain (value : Value) : Vm Handle := do
  checkOwner value
  modifyGet fun m =>
    let (handle, retained) := m.heap.retained.insert value
    (handle, { m with heap.retained := retained })

/-- Frees the slot of a retained value; false if it holds none. -/
def release (slot : Handle) : Vm Bool :=
  modifyGet fun m =>
    let (value, retained) := m.heap.retained.remove slot
    (value.isSome, { m with heap.retained := retained })

end Vm

namespace Machine

/-- Retains a value by a guard. -/
def hold (m : Machine) (value : Value) : Guard × Machine :=
  let (slot, retained) := m.heap.retained.insert value
  ({ slot, value }, { m with heap.retained := retained, guards := m.guards + 1 })

/-- Gives back the slot of a guard. -/
def letGo (m : Machine) (guard : Guard) : Machine :=
  let (value, retained) := m.heap.retained.remove guard.slot
  { m with
    heap.retained := retained
    guards := if value.isSome then m.guards - 1 else m.guards }

/-- Gives back the slots of guards, in order. -/
def letGoAll (m : Machine) (guards : List Guard) : Machine :=
  guards.foldl letGo m

/-- Takes out what functions of the host reported. -/
def takeReports (m : Machine) : List (String × List Value) × Machine :=
  (m.reports.toList, { m with reports := #[] })

/-- What the collector looks at besides the heap. -/
def surroundings (m : Machine) : Surroundings where
  prototypes := m.prototypes
  cells := m.cells

/-- Removes what the given roots and the retained values do not reach. -/
def collectFrom (m : Machine) (roots : List Value) : Nat × Machine :=
  let (freed, heap) := m.heap.collect m.surroundings roots
  (freed, { m with heap })

/-- Removes what the root globals and the retained values do not reach, unless a call is
running.
-/
def collect (m : Machine) : Option Nat × Machine :=
  if 0 < m.activeCalls then
    (none, m)
  else
    let (freed, m) := m.collectFrom [.table m.globals]
    (some freed, m)

end Machine

/-- Retains a value by a guard after checking that it belongs to the heap. -/
def Vm.hold (value : Value) : Vm Guard := do
  checkOwner value
  modifyGet (·.hold value)

end HookMachine
