import HookMachine.Proofs.Deeds.Following
import HookMachine.Proofs.Deeds.Overlays
import HookMachine.SelfCheck

/-!
A function loaded into a new runtime. Making a runtime fills its root globals, and the first function
that is loaded has the shared environment made for it. Neither touches anything else: the
configuration, prototypes, closures, hooks, connections and reports are as the host left them.
-/

namespace HookMachine

open Run (Follows)

variable {m middle after : Machine}

-----------------------------------------------------------------------------------------
-- What furnishing a runtime leaves alone
-----------------------------------------------------------------------------------------

/-- Machines that differ in nothing but tables, natives and environments, with what these retain. -/
structure Machine.Furnishes (m after : Machine) : Prop where
  same : ∃ tables natives retained guards environments,
    after = { m with
      heap.tables := tables
      heap.natives := natives
      heap.retained := retained
      guards
      environments }
  minted : m.heap.Minted → after.heap.Minted

namespace Machine.Furnishes

theorem refl (m : Machine) : m.Furnishes m :=
  ⟨⟨_, _, _, _, _, rfl⟩, id⟩

theorem trans (first : m.Furnishes middle) (second : middle.Furnishes after)
    : m.Furnishes after := by
  obtain ⟨_, _, _, _, _, rfl⟩ := first.same
  obtain ⟨_, _, _, _, _, rfl⟩ := second.same
  exact ⟨⟨_, _, _, _, _, rfl⟩, fun minted => second.minted (first.minted minted)⟩

instance : IsPreorder Machine Furnishes where
  refl := refl
  trans _ _ _ := trans

theorem tables {tables : Arena Table} (heap : tables.heap = m.heap.tables.heap)
    : m.Furnishes { m with heap.tables := tables } :=
  ⟨⟨_, _, _, _, _, rfl⟩, fun minted => ⟨heap.trans minted.tables, minted.closures, minted.natives⟩⟩

theorem natives {natives : Arena Native} (heap : natives.heap = m.heap.natives.heap)
    : m.Furnishes { m with heap.natives := natives } :=
  ⟨⟨_, _, _, _, _, rfl⟩, fun minted => ⟨minted.tables, minted.closures, heap.trans minted.natives⟩⟩

/-- What is retained and on record may change. -/
theorem aside {retained : Arena Value} {guards : Nat} {environments : EnvironmentCache}
    : m.Furnishes { m with heap.retained := retained, guards, environments } :=
  ⟨⟨_, _, _, _, _, rfl⟩, fun minted => ⟨minted.tables, minted.closures, minted.natives⟩⟩

end Machine.Furnishes

open Machine (Furnishes)

namespace Vm

theorem newTable_furnishes : Follows Furnishes newTable :=
  .modifyGet fun _ => .tables (Arena.heap_insert ..)

theorem newNative_furnishes (n : Native) : Follows Furnishes (newNative n) :=
  .modifyGet fun _ => .natives (Arena.heap_insert ..)

theorem updateTable_furnishes (ref : TableRef) (change : Table → Table)
    : Follows Furnishes (updateTable ref change) :=
  .andThen (.looks (table_looks ref)) fun _ => .modify fun _ => .tables (Arena.heap_modify ..)

theorem rawSet_furnishes (ref : TableRef) (key value : Value)
    : Follows Furnishes (rawSet ref key value) := by
  refine .andThen (.looks (checkKey_looks key)) fun _ => ?_
  refine .andThen (.looks (checkOwner_looks value)) fun _ => ?_
  refine .andThen (.looks (table_looks ref)) fun t => ?_
  split
  · exact .failThen _ _
  · exact updateTable_furnishes ref _

theorem setMetatable_furnishes (ref mt : TableRef)
    : Follows Furnishes (setMetatable ref (some mt)) :=
  .andThen (.looks (table_looks mt)) fun _ => updateTable_furnishes ref _

theorem hold_furnishes (value : Value) : Follows Furnishes (Vm.hold value) :=
  .andThen (.looks (checkOwner_looks value)) fun _ => .modifyGet fun _ => .aside

end Vm

theorem Script.register_furnishes (functions : List ScriptFunction)
    : Follows Furnishes (register functions) := by
  induction functions with
  | nil => exact .pure ()
  | cons f rest ih =>
      refine .andThen (Vm.newNative_furnishes _) fun native => .andThen .get fun m => ?_
      exact .andThen (Vm.rawSet_furnishes ..) fun _ => ih

/-- Making a runtime fills its root globals. -/
theorem Machine.furnishes_create (heap : Nat) (config : Config)
    : (bare heap config).Furnishes (create heap config) := by
  have registered := (Script.register_furnishes ScriptFunction.all).outcome (bare heap config)
  unfold create
  generalize Script.register ScriptFunction.all (bare heap config) = outcome at registered ⊢
  cases outcome <;> exact registered

namespace Environment

theorem tableOf_furnishes (guard : Guard) : Follows Furnishes (tableOf guard) := by
  unfold tableOf
  split
  · exact .pure _
  · exact .fail _

theorem fallback_furnishes : Follows Furnishes fallback := by
  refine .andThen .get fun m => ?_
  split
  · exact tableOf_furnishes _
  · refine .andThen Vm.newTable_furnishes.lift fun ref => ?_
    refine .andThen (Vm.hold_furnishes _).lift fun guard => .andThen .get fun now => ?_
    have shut : Follows Furnishes
        (do
          Vm.rawSet ref (.string "__index") (.table now.globals)
          Vm.setReadOnly ref true : Action Unit) :=
      .andThen (Vm.rawSet_furnishes ..).lift fun _ => (Vm.updateTable_furnishes ref _).lift
    refine .andThen (shut.onHalt fun _ => .aside) fun _ => ?_
    exact .andThen (.modify fun _ => .aside) fun _ => .pure ref

theorem create_furnishes : Follows Furnishes create := by
  refine .andThen fallback_furnishes fun metatable => ?_
  refine .andThen Vm.newTable_furnishes.lift fun ref => ?_
  refine .andThen (Vm.hold_furnishes _).lift fun guard => ?_
  refine .andThen ((Vm.setMetatable_furnishes ..).lift.onHalt fun _ => .aside) fun _ => ?_
  exact .pure guard

/-- An owner without an environment on record has the one that is made. -/
theorem recorded_of_missing {owner : EnvironmentOwner} {guard : Guard} {e : TableRef}
    (missing : m.environments.find? owner = none) (made : create m = .ok guard middle)
    (holds : guard.value = .table e)
    : recorded owner m
      = .ok e { middle with environments := middle.environments.insert guard owner } := by
  refine (Run.bind_get ..).trans ?_
  rw [missing]
  exact (Run.bind_ok made).trans ((Run.bind_ok rfl).trans (tableOf_of_holds holds))

/-- The shared environment of a runtime that has none yet is made. -/
theorem find_runtime_furnishes (layered : m.Layered) (missing : m.environments.shared = none)
    : ∃ e after, find .runtime m = .ok e after ∧ m.Furnishes after := by
  obtain ⟨guard, e, -, middle, made, holds, -⟩ := create_founds layered
  have furnishes := create_furnishes.outcome m
  rw [made] at furnishes
  exact ⟨e, _, recorded_of_missing missing made holds, furnishes.trans .aside⟩

/-- A function that captures nothing is loaded into a runtime without a shared environment. -/
theorem load_runtime_furnishes {prototype : PrototypeRef} (layered : m.Layered)
    (missing : m.environments.shared = none)
    (plain : (m.prototypes.get prototype).upvalues = 0)
    : ∃ middle e, m.Furnishes middle
        ∧ load .runtime prototype m
          = .ok ⟨(middle.heap.closures.insert
                { prototype, upvalues := #[], environment := e }).1⟩
              { middle with
                heap.closures :=
                  (middle.heap.closures.insert
                    { prototype, upvalues := #[], environment := e }).2 } := by
  obtain ⟨e, middle, found, furnishes⟩ := find_runtime_furnishes layered missing
  refine ⟨middle, e, furnishes, (Run.bind_ok found).trans (Run.lift_ok ?_)⟩
  refine Vm.instantiate_of_plain ?_ (some e)
  obtain ⟨_, _, _, _, _, rfl⟩ := furnishes.same
  exact plain

end Environment
end HookMachine
