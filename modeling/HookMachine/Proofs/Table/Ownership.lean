import HookMachine.Proofs.Table.Invariants

/-!
Values of other heaps and tables. Whatever happens, a table holds no such value under a key that
is no number: all writes of a value refuse it, and lists, which are stored unchecked, have numbers
for keys. What keys refer to is never checked.
-/

namespace HookMachine

/-- All that a table holds belongs to the heap, except under numbers. -/
def Heap.OwnsFields (heap : Heap) (t : Table) : Prop :=
  ∀ field ∈ t.hash, heap.owns field.2 = true ∨ ∃ x, field.1 = .number x

/-- Values of other heaps are kept out of tables, but for lists. -/
structure Machine.KeepsOut (m : Machine) : Prop where
  fields {handle t key value}
    : m.heap.tables.get handle = .ok t → t.get? key = some value
      → m.heap.owns value = true ∨ ∃ x, key = .number x
  /-- A value of another heap is not written, whatever else is the matter with the write. -/
  rawSet {value} (ref : TableRef) (key : Value)
    : m.heap.owns value = false → Vm.checkKey key m = .ok () m
      → Vm.rawSet ref key value m = .error (.failed .foreignHandle) m
  assign {value} (invoke : Invoke) (ref : TableRef) (key : Value) (depth : Nat)
    : m.heap.owns value = false → Vm.checkKey key m = .ok () m
      → Vm.assign invoke (.table ref) key value depth m = .error (.failed .foreignHandle) m

variable {heap : Heap} {t : Table} {key value : Value} {s : Situation}

-----------------------------------------------------------------------------------------
-- Single tables
-----------------------------------------------------------------------------------------

/-- Scripts find equal to a number numbers only. -/
theorem Value.number_of_beq {other : Value} (equal : (value == other) = true)
    : (∃ x, value = .number x) ↔ ∃ x, other = .number x := by
  cases value <;> cases other <;> first | cases equal; done | simp

theorem Table.hash_absorb_subset (fuel : Nat) (t : Table) : (absorb fuel t).hash ⊆ t.hash := by
  induction fuel generalizing t with
  | zero => exact List.Subset.refl _
  | succ fuel ih =>
      unfold absorb
      dsimp only
      split
      · exact List.Subset.refl _
      · exact fun field member => (List.mem_filter.mp (ih _ member)).1

namespace Heap.OwnsFields

theorem setHash (owns : heap.OwnsFields t)
    (allowed : heap.owns value = true ∨ ∃ x, key = .number x)
    : heap.OwnsFields (t.setHash key value) := by
  unfold Table.setHash
  split
  · exact fun field member => owns field (List.mem_filter.mp member).1
  · intro field member
    rcases Table.mem_store member with ⟨named, rfl⟩ | old
    · rcases allowed with owned | ⟨x, rfl⟩
      · exact .inl owned
      · rcases named with same | ⟨equal, _⟩
        · exact .inr ⟨x, same⟩
        · exact .inr ((Value.number_of_beq equal).mpr ⟨x, rfl⟩)
    · exact owns field old

/-- A value of the heap may be stored anywhere, any other under numbers. -/
theorem set (owns : heap.OwnsFields t) (allowed : heap.owns value = true ∨ ∃ x, key = .number x)
    : heap.OwnsFields (t.set key value) := by
  unfold Table.set
  split
  · exact owns.setHash allowed
  · split
    · have kept := Table.hash_absorb_subset t.hash.length { t with array := t.array.push value }
      exact fun field member => owns field (kept member)
    · split
      · exact owns
      · exact owns.setHash allowed

/-- Lists are stored under numbers, by induction over the list. -/
theorem storeList (owns : heap.OwnsFields t) (start : Nat) (values : List Value)
    : heap.OwnsFields (Vm.storeList t start values) := by
  induction values generalizing t start with
  | nil => exact owns
  | cons value rest ih => exact ih (owns.set (.inr ⟨_, rfl⟩)) (start + 1)

theorem get? (owns : heap.OwnsFields t) (found : t.get? key = some value)
    : heap.owns value = true ∨ ∃ x, key = .number x := by
  cases key with
  | number x => exact .inr ⟨x, rfl⟩
  | _ =>
      obtain ⟨field, hit, rfl⟩ := Option.map_eq_some_iff.mp found
      have equal := List.find?_some (p := fun field : Value × Value => field.1 == _) hit
      exact (owns field (List.mem_of_find?_eq_some hit)).imp_right (Value.number_of_beq equal).mp

/-- No change brings a value of another heap into a table, except under numbers. -/
theorem invariant (heap : Heap) : Table.Invariant heap.owns heap.OwnsFields where
  empty _ member := (List.not_mem_nil member).elim
  set owns _ owned := owns.set (.inl owned)
  storeList start values owns := owns.storeList start values
  attach _ owns := owns
  shield _ owns := owns

end Heap.OwnsFields

-----------------------------------------------------------------------------------------
-- Whatever happens
-----------------------------------------------------------------------------------------

namespace Situation

/-- Whatever a runtime gets into, values of other heaps are kept out of its tables, but for lists.
-/
theorem keepsOut_of_reached (reached : s.Reached) : s.machine.KeepsOut where
  fields found held := (reached.allTables (Heap.OwnsFields.invariant _) _ _ found).get? held
  rawSet _ _ foreign checked :=
    (Run.bind_ok checked).trans (Run.bind_error (Vm.checkOwner_of_foreign foreign))
  assign _ _ _ _ foreign checked :=
    (Run.bind_ok checked).trans (Run.bind_error (Vm.checkOwner_of_foreign foreign))

/-- A new runtime does not let a table of another heap into its root globals. -/
theorem keepsOut_of_reached_fresh
    : (fresh 1 {}).machine.KeepsOut
      ∧ Vm.rawSet (fresh 1 {}).machine.globals (.string "shared") (.table ⟨⟨2, 0, 0⟩⟩)
          (fresh 1 {}).machine
        = .error (.failed .foreignHandle) (fresh 1 {}).machine := by
  have keeps := keepsOut_of_reached (s := fresh 1 {}) ⟨1, {}, .refl⟩
  have foreign : (fresh 1 {}).machine.heap.owns (.table ⟨⟨2, 0, 0⟩⟩) = false := by
    decide +kernel
  exact ⟨keeps, keeps.rawSet _ _ foreign rfl⟩

end Situation
end HookMachine
