import HookMachine.Proofs.Soundness.Closed
import HookMachine.Proofs.Table.FiniteMap

/-!
What is true of every table. A property of single tables that each kind of change keeps is one of
all tables of a runtime, whatever it gets into; that the two parts of a table divide its keys is
such a property, so every table is a finite map.
-/

namespace HookMachine

/-- A property of tables that each change keeps, in a heap that owns these values. -/
structure Table.Invariant (owns : Value → Bool) (good : Table → Prop) : Prop where
  empty : good {}
  set {t key value}
    : good t → key.isKey = true → owns value = true → good (t.set key value)
  /-- Lists are stored whatever they hold. -/
  storeList {t} (start : Nat) (values : List Value) : good t → good (Vm.storeList t start values)
  attach {t} (metatable : Option TableRef) : good t → good { t with metatable }
  shield {t} (readOnly : Bool) : good t → good { t with readOnly }

/-- Every table has the property. -/
def Machine.AllTables (good : Table → Prop) (m : Machine) : Prop :=
  ∀ handle t, m.heap.tables.get handle = .ok t → good t

variable {owns : Value → Bool} {good : Table → Prop} {t : Table} {m after : Machine}
  {s : Situation}

-----------------------------------------------------------------------------------------
-- Properties that all changes keep
-----------------------------------------------------------------------------------------

/-- A new machine comes of a bare one by changes of tables. -/
theorem Machine.altered_create (heap : Nat) (config : Config)
    : (bare heap config).Altered (create heap config) := by
  have registered := Script.register_leads (bare_sound Rules.lax heap config) ScriptFunction.all
  have left := registered.leaves.altered
  unfold Run.leaves at left
  unfold Machine.create
  split <;> simp_all

theorem Machine.id_collect (m : Machine) : m.collect.2.heap.id = m.heap.id := by
  unfold collect
  split
  · rfl
  · exact Heap.id_collect ..

namespace Machine.AllTables

theorem modify (all : m.AllTables good) {handle : Handle} {change : Table → Table}
    (kept : ∀ t, good t → good (change t))
    : AllTables good { m with heap.tables := m.heap.tables.modify handle change } := by
  intro other t found
  obtain ⟨before, held, rfl⟩ := Arena.get_modify.mp found
  split
  · exact kept before (all other before held)
  · exact all other before held

theorem alters (all : m.AllTables good) (invariant : Table.Invariant m.heap.owns good)
    (alters : m.Alters after)
    : after.AllTables good := by
  cases alters with
  | aside tables => exact fun handle t found => all handle t (tables ▸ found)
  | created =>
      intro handle t found
      rcases Arena.get_insert.mp found with ⟨_, rfl⟩ | found
      · exact invariant.empty
      · exact all handle t found
  | written _ _ named owned => exact all.modify fun _ kept => invariant.set kept named owned
  | listed => exact all.modify fun _ kept => invariant.storeList _ _ kept
  | attached => exact all.modify fun _ kept => invariant.attach _ kept
  | shielded => exact all.modify fun _ kept => invariant.shield _ kept

/-- Any number of changes keep the property, by induction over them. -/
theorem altered (all : m.AllTables good) (invariant : Table.Invariant m.heap.owns good)
    (altered : m.Altered after)
    : after.AllTables good := by
  induction altered with
  | refl => exact all
  | tail before alters ih =>
      have same := funext (Heap.owns_congr (Altered.id before))
      exact ih.alters (same ▸ invariant) alters

/-- A collection keeps tables as they are, if it keeps them. -/
theorem collect {rules : Rules} {own : List Guard} (all : m.AllTables good)
    (sound : rules.Sound own m)
    : m.collect.2.AllTables good := by
  unfold Machine.collect
  split
  · exact all
  · intro handle t found
    exact all handle t ((Heap.get_tables_collect sound.unmarked).mp found).1

theorem create (heap : Nat) (config : Config)
    (invariant : Table.Invariant (bare heap config).heap.owns good)
    : (create heap config).AllTables good := by
  refine AllTables.altered (fun handle t found => ?_) invariant (altered_create heap config)
  have found : ((Heap.empty heap).tables.insert {}).2.get handle = .ok t := found
  rcases Arena.get_insert.mp found with ⟨_, rfl⟩ | found
  · exact invariant.empty
  · exact absurd found (Arena.get_empty heap handle t)

end Machine.AllTables

namespace Situation

/-- Whatever a runtime gets into, its tables have the property, by induction over the steps. -/
theorem Reached.allTables (reached : s.Reached)
    (invariant : Table.Invariant s.machine.heap.owns good)
    : s.machine.AllTables good := by
  obtain ⟨heap, config, steps⟩ := reached
  suffices s.machine.heap.id = (Machine.bare heap config).heap.id
      ∧ (Table.Invariant (Machine.bare heap config).heap.owns good → s.machine.AllTables good) from
    this.2 (funext (Heap.owns_congr this.1) ▸ invariant)
  clear invariant
  induction steps with
  | refl =>
      exact ⟨(Machine.altered_create heap config).id, Machine.AllTables.create heap config⟩
  | tail steps step ih =>
      obtain ⟨same, all⟩ := ih
      have sound := sound_of_steps (sound_fresh _ heap config) steps
      rcases sound.altered step with altered | collected
      · refine ⟨altered.id.trans same, fun invariant => ?_⟩
        exact (all invariant).altered (funext (Heap.owns_congr same) ▸ invariant) altered
      · rw [collected]
        exact ⟨(Machine.id_collect _).trans same, fun invariant => (all invariant).collect sound.sound⟩

end Situation

-----------------------------------------------------------------------------------------
-- Every table is a finite map
-----------------------------------------------------------------------------------------

/-- What can be a key is not NaN. -/
theorem Value.isNaN_of_isKey {key : Value} (named : key.isKey = true) : key.isNaN = false := by
  cases key with
  | number x => simpa [isKey, isNaN] using named
  | _ => rfl

/-- Lists are stored under counts, by induction over the list. -/
theorem Table.Parted.storeList (parted : t.Parted 1) (start : Nat) (values : List Value)
    : (Vm.storeList t start values).Parted 1 := by
  induction values generalizing t start with
  | nil => exact parted
  | cons value rest ih =>
      have number : (Value.ofNat (start + 1)).isNaN = false := Number.isNaN_toFloat (start + 1)
      exact ih (parted.set number value).1 (start + 1)

/-- All changes leave the keys of a table divided between its parts. -/
theorem Table.parted_invariant : Invariant owns (Parted 1) where
  empty := parted_empty
  set parted named _ := (parted.set (Value.isNaN_of_isKey named) _).1
  storeList start values parted := parted.storeList start values
  attach _ parted := { parted with }
  shield _ parted := { parted with }

/-- Whatever a runtime gets into, what is written to a table is what is read of it. -/
theorem Situation.Reached.parted (reached : s.Reached) : s.machine.AllTables (Table.Parted 1) :=
  reached.allTables Table.parted_invariant

end HookMachine
