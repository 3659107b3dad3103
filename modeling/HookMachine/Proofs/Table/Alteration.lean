import HookMachine.Execution.Instruction
import Mathlib.Logic.Relation

/-!
What operations do to tables, taken apart into single changes. A table is written only while it is
not protected, under what can be a key and with values of the heap; lists alone are stored without a
look at what they hold.
-/

namespace HookMachine

/-- What belongs to a heap is a matter of its identity alone. -/
theorem Heap.owns_congr {heap other : Heap} (same : other.id = heap.id) (value : Value)
    : other.owns value = heap.owns value := by
  unfold owns
  rw [same]

namespace Machine

/-- One change of a table, or none. -/
inductive Alters (m : Machine) : Machine → Prop
  | aside {after} (tables : after.heap.tables = m.heap.tables) (id : after.heap.id = m.heap.id)
    : Alters m after
  | created : Alters m { m with heap.tables := (m.heap.tables.insert {}).2 }
  | written {handle t key value} (found : m.heap.tables.get handle = .ok t)
    (writable : t.readOnly = false) (named : key.isKey = true) (owned : m.heap.owns value = true)
    : Alters m { m with heap.tables := m.heap.tables.modify handle (·.set key value) }
  | listed {handle t start values} (found : m.heap.tables.get handle = .ok t)
    (writable : t.readOnly = false)
    : Alters m
        { m with heap.tables := m.heap.tables.modify handle (Vm.storeList · start values) }
  | attached {handle t metatable} (found : m.heap.tables.get handle = .ok t)
    (there : ∀ mt, metatable = some mt → m.heap.isLive (.table mt) = true)
    : Alters m { m with heap.tables := m.heap.tables.modify handle ({ · with metatable }) }
  | shielded {handle t readOnly} (found : m.heap.tables.get handle = .ok t)
    : Alters m { m with heap.tables := m.heap.tables.modify handle ({ · with readOnly }) }

/-- Any number of changes of tables. -/
abbrev Altered : Machine → Machine → Prop :=
  Relation.ReflTransGen Alters

variable {m after : Machine}

/-- Tables may stay as they are. -/
theorem Altered.aside (tables : after.heap.tables = m.heap.tables)
    (id : after.heap.id = m.heap.id)
    : m.Altered after :=
  .single (.aside tables id)

theorem Alters.id (alters : m.Alters after) : after.heap.id = m.heap.id := by
  cases alters with
  | aside _ id => exact id
  | _ => rfl

/-- A heap stays the same one, by induction over the changes. -/
theorem Altered.id (altered : m.Altered after) : after.heap.id = m.heap.id := by
  induction altered with
  | refl => rfl
  | tail _ alters ih => exact alters.id.trans ih

end Machine
end HookMachine
