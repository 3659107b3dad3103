import HookMachine.Proofs.Deeds.FollowingPoints

/-!
Operations that leave connections alone. Most of them do, and none but a collection takes an object
away, so this is a relation that lets pass whatever is done elsewhere.
-/

namespace HookMachine

open Machine (Lenient)
open Run (Looks Follows)

variable {α β : Type} {m middle after : Machine}

/-- The connections are the same, and no object is gone. -/
structure Machine.Calm (m after : Machine) : Prop where
  connections : after.connections = m.connections
  live : ∀ object, m.heap.isLive object = true → after.heap.isLive object = true

namespace Machine.Calm

theorem refl (m : Machine) : m.Calm m :=
  ⟨rfl, fun _ => id⟩

theorem trans (first : m.Calm middle) (second : middle.Calm after) : m.Calm after where
  connections := second.connections.trans first.connections
  live object there := second.live object (first.live object there)

/-- Only what is not an object changes. -/
theorem of_heap (connections : after.connections = m.connections)
    (tables : after.heap.tables = m.heap.tables) (closures : after.heap.closures = m.heap.closures)
    (natives : after.heap.natives = m.heap.natives)
    : m.Calm after := by
  refine ⟨connections, fun object there => ?_⟩
  cases object with
  | table ref => exact (congrArg (·.contains ref.handle) tables).trans there
  | closure ref => exact (congrArg (·.contains ref.handle) closures).trans there
  | native ref => exact (congrArg (·.contains ref.handle) natives).trans there

theorem of_tables {tables : Arena Table}
    (kept : ∀ handle, m.heap.tables.contains handle = true → tables.contains handle = true)
    : m.Calm { m with heap.tables := tables } := by
  refine ⟨rfl, fun object there => ?_⟩
  cases object with
  | table ref => exact kept _ there
  | closure | native => exact there

theorem of_closures {closures : Arena Closure}
    (kept : ∀ handle, m.heap.closures.contains handle = true → closures.contains handle = true)
    : m.Calm { m with heap.closures := closures } := by
  refine ⟨rfl, fun object there => ?_⟩
  cases object with
  | closure ref => exact kept _ there
  | table | native => exact there

theorem of_natives {natives : Arena Native}
    (kept : ∀ handle, m.heap.natives.contains handle = true → natives.contains handle = true)
    : m.Calm { m with heap.natives := natives } := by
  refine ⟨rfl, fun object there => ?_⟩
  cases object with
  | native ref => exact kept _ there
  | table | closure => exact there

end Machine.Calm

instance : Lenient Machine.Calm where
  refl := .refl
  trans := .trans
  aside tables closures natives _ connections := .of_heap connections tables closures natives
  tables kept := .of_tables kept
  natives kept := .of_natives kept
  redirected _ _ := .of_closures fun _ there => (Arena.contains_modify ..).trans there

theorem Machine.Near.calm (near : m.Near after) : m.Calm after :=
  Lenient.of_near near

theorem Machine.calm_letGoAll (m : Machine) (guards : List Guard) : m.Calm (m.letGoAll guards) :=
  Lenient.letGoAll m guards

-----------------------------------------------------------------------------------------
-- Closures and captured variables
-----------------------------------------------------------------------------------------

namespace Vm

theorem newClosure_calms (c : Closure) : Follows Machine.Calm (newClosure c) :=
  .modifyGet fun _ => .of_closures fun _ => Arena.contains_insert c

theorem newCell_calms (value : Value) : Follows Machine.Calm (newCell value) :=
  .modifyGet fun _ => .of_heap rfl rfl rfl rfl

theorem newCells_calms (count : Nat) : Follows Machine.Calm (newCells count) := by
  induction count with
  | zero => exact .pure []
  | succ count ih => exact (newCell_calms _).andThen fun _ => ih.andThen fun _ => .pure _

theorem writeCell_calms (cell : CellRef) (value : Value)
    : Follows Machine.Calm (writeCell cell value) :=
  .modify fun _ => .of_heap rfl rfl rfl rfl

theorem instantiate_calms (ref : PrototypeRef) (environment : Option TableRef)
    : Follows Machine.Calm (instantiate ref environment) :=
  .andThen (.looks (prototype_looks ref)) fun _ => (newCells_calms _).andThen fun _ =>
    .andThen .get fun _ => newClosure_calms _

theorem clone_calms (f : Value) : Follows Machine.Calm (clone f) := by
  refine .andThen (.looks (checkOwner_looks f)) fun _ => ?_
  split
  · exact .andThen (.looks (closure_looks _)) fun _ => (newClosure_calms _).andThen fun _ => .pure _
  · exact .andThen (.looks (native_looks _)) fun _ => (newNative_follows _).andThen fun _ => .pure _
  · exact .pure none

variable (frame : Frame)

theorem capture_calms (descriptor : Instruction)
    : Follows Machine.Calm (capture frame descriptor) := by
  unfold capture
  split
  · split
    · exact .pure _
    · exact (newCell_calms _).andThen fun _ => .pure _
  · exact .andThen (.looks (upvalue_looks frame _)) fun _ => .pure _
  · exact .fail _

theorem captures_calms (count : Nat) : Follows Machine.Calm (captures count frame) := by
  induction count generalizing frame with
  | zero => exact .pure _
  | succ count ih =>
      unfold captures
      split
      · exact .fail _
      · exact (capture_calms _ _).andThen fun first => (ih first.1).andThen fun _ => .pure _

theorem close_calms (i : Instruction) : Follows Machine.Calm (close frame i) := by
  refine .andThen (.looks (prototype_looks _)) fun p => ?_
  split
  · exact .fail _
  · refine .andThen (.looks (prototype_looks _)) fun nested => ?_
    exact (captures_calms frame _).andThen fun _ => (newClosure_calms _).andThen fun _ => .pure _

end Vm

theorem Plan.variables_calms (frame : Frame) {op : Opcode} (i : Instruction)
    (reaches : op = .closure ∨ op = .setUpval)
    : (execute frame op i).Follows Machine.Calm := by
  rcases reaches with rfl | rfl
  · exact .lift (Vm.close_calms frame i)
  · refine .lift (.andThen (.looks (Vm.upvalue_looks frame _)) fun _ => ?_)
    exact (Vm.writeCell_calms _ _).andThen fun _ => .pure _

end HookMachine
