import HookMachine.Arena.View
import HookMachine.Heap

/-!
Collection: every object that is not reachable from given roots and the retained values is
removed. A worklist of values marks the objects that they refer to and goes on with what
those refer to; then every object without a mark is swept away and the marks are taken off.
-/

namespace HookMachine

/-- What the contents of a heap refer to besides each other: prototypes and cells. -/
structure Surroundings where
  prototypes : PrototypeStore
  cells : Array Value

/-- The values that a table refers to. -/
def Table.references (t : Table) : List Value :=
  t.array.toList ++ t.hash.flatMap (fun field => [field.1, field.2])
    ++ (t.metatable.map Value.table).toList

/-- The values that a closure refers to. -/
def Closure.references (around : Surroundings) (c : Closure) : List Value :=
  .table c.environment :: c.upvalues.toList.map (fun cell => around.cells.getD cell.index .nil)
    ++ c.redirect.toList ++ around.prototypes.references c.prototype

/-- A table with its mark set or taken off. -/
def Table.mark (on : Bool) (t : Table) : Table := { t with marked := on }

/-- A closure with its mark set or taken off. -/
def Closure.mark (on : Bool) (c : Closure) : Closure := { c with marked := on }

/-- A native with its mark set or taken off. -/
def Native.mark (on : Bool) (n : Native) : Native := { n with marked := on }

namespace Heap

/-- The values that an object refers to; one that does not exist refers to none. -/
def references (heap : Heap) (around : Surroundings) : ObjectRef → List Value
  | .table ref => (heap.tables.get ref.handle).toOption.elim [] Table.references
  | .closure ref => (heap.closures.get ref.handle).toOption.elim [] (Closure.references around)
  | .native ref => (heap.natives.get ref.handle).toOption.elim [] Native.bound

/-- Whether an object exists and is marked. -/
def isMarked (heap : Heap) : ObjectRef → Bool
  | .table ref => heap.tables.holds ref.handle Table.marked
  | .closure ref => heap.closures.holds ref.handle Closure.marked
  | .native ref => heap.natives.holds ref.handle Native.marked

/-- Marks an object. -/
def mark (heap : Heap) : ObjectRef → Heap
  | .table ref => { heap with tables := heap.tables.modify ref.handle (Table.mark true) }
  | .closure ref => { heap with closures := heap.closures.modify ref.handle (Closure.mark true) }
  | .native ref => { heap with natives := heap.natives.modify ref.handle (Native.mark true) }

/-- Every object that exists. -/
def allObjects (heap : Heap) : List ObjectRef :=
  heap.tables.handles.map (fun handle => .table ⟨handle⟩)
    ++ heap.closures.handles.map (fun handle => .closure ⟨handle⟩)
    ++ heap.natives.handles.map (fun handle => .native ⟨handle⟩)

/-- The objects that are not marked yet. -/
def unmarked (heap : Heap) : List ObjectRef :=
  heap.allObjects.filter fun object => !heap.isMarked object

theorem mem_allObjects {heap : Heap} {object : ObjectRef}
    : object ∈ heap.allObjects ↔ heap.isLive object = true := by
  rcases object with ⟨⟨handle⟩⟩ | ⟨⟨handle⟩⟩ | ⟨⟨handle⟩⟩ <;>
    simp [allObjects, isLive, Arena.mem_handles]

@[simp]
theorem allObjects_mark (heap : Heap) (object : ObjectRef)
    : (heap.mark object).allObjects = heap.allObjects := by
  cases object <;> simp [allObjects, mark]

/-- Marking an object marks it, if it exists, and no other. -/
theorem isMarked_mark {heap : Heap} {object other : ObjectRef}
    : (heap.mark object).isMarked other = true
      ↔ heap.isMarked other = true ∨ (other = object ∧ heap.isLive object = true) := by
  rcases object with ⟨⟨handle⟩⟩ | ⟨⟨handle⟩⟩ | ⟨⟨handle⟩⟩ <;>
    rcases other with ⟨⟨other⟩⟩ | ⟨⟨other⟩⟩ | ⟨⟨other⟩⟩ <;>
    simp only [isMarked, isLive, mark, Arena.holds_iff, Arena.contains_iff, Arena.get_modify,
      ObjectRef.table.injEq, ObjectRef.closure.injEq, ObjectRef.native.injEq, TableRef.mk.injEq,
      ClosureRef.mk.injEq, NativeRef.mk.injEq, reduceCtorEq, false_and, or_false] <;>
    grind [Table.mark, Closure.mark, Native.mark]

/-- Marking an object makes the unmarked ones fewer. -/
theorem length_unmarked_mark_lt {heap : Heap} {object : ObjectRef}
    (live : heap.isLive object = true) (unmarked : ¬heap.isMarked object = true)
    : (heap.mark object).unmarked.length < heap.unmarked.length := by
  have remaining : (heap.mark object).unmarked = heap.unmarked.filter fun other => other ≠ object
      := by
    simp only [Heap.unmarked, allObjects_mark, List.filter_filter]
    refine List.filter_congr fun other _ => ?_
    have known : (heap.mark object).isMarked other = true ↔ _ := isMarked_mark
    grind
  rw [remaining, List.length_filter_lt_length_iff_exists]
  refine ⟨object, ?_, by simp⟩
  simp [Heap.unmarked, mem_allObjects, live, unmarked]

/-- Marks what the values on the worklist refer to, and what that refers to in turn. Every
round marks an object or shortens the worklist.
-/
def markAll (around : Surroundings) (heap : Heap) : List Value → Heap
  | [] => heap
  | value :: gray =>
      match value.object? with
      | none => markAll around heap gray
      | some object =>
          if heap.isLive object ∧ ¬heap.isMarked object then
            markAll around (heap.mark object) (heap.references around object ++ gray)
          else
            markAll around heap gray
termination_by gray => (heap.unmarked.length, gray.length)
decreasing_by
  all_goals simp_wf
  · exact .right _ (by simp)
  · rename_i white
    exact .left _ _ (length_unmarked_mark_lt white.1 (by simpa using white.2))
  · exact .right _ (by simp)

/-- Removes every object without a mark, and says how many. -/
def sweep (heap : Heap) : Nat × Heap :=
  let (tables, keptTables) := heap.tables.retain fun _ t => t.marked
  let (closures, keptClosures) := heap.closures.retain fun _ c => c.marked
  let (natives, keptNatives) := heap.natives.retain fun _ n => n.marked
  (tables + closures + natives,
    { heap with tables := keptTables, closures := keptClosures, natives := keptNatives })

/-- Takes all marks off. -/
def clearMarks (heap : Heap) : Heap :=
  { heap with
    tables := heap.tables.map (Table.mark false)
    closures := heap.closures.map (Closure.mark false)
    natives := heap.natives.map (Native.mark false) }

/-- The values that a collection starts from: the roots and the retained values. -/
def anchors (heap : Heap) (roots : List Value) : List Value :=
  roots ++ heap.retained.toList.map (·.2)

/-- Removes every object that neither the roots nor the retained values keep alive, and says
how many.
-/
def collect (heap : Heap) (around : Surroundings) (roots : List Value) : Nat × Heap :=
  let (removed, kept) := (markAll around heap (heap.anchors roots)).sweep
  (removed, kept.clearMarks)

end Heap
end HookMachine
