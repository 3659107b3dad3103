import HookMachine.Proofs.Arena.History
import HookMachine.Proofs.Hook.Entries
import HookMachine.Proofs.Soundness.Soundness

/-!
Accounts of what is retained. The registries of a machine own slots, and so does whoever else has
retained a value; accounts are balanced if every slot that is taken has one owner and holds what
its owner retained. Retaining, giving back and passing on guards keep them balanced.
-/

namespace HookMachine

-----------------------------------------------------------------------------------------
-- Lists
-----------------------------------------------------------------------------------------

namespace Arena

variable {α : Type} {arena : Arena α}

theorem nodup_toList (arena : Arena α) : arena.toList.Nodup :=
  .of_map Prod.fst arena.nodup_handles

theorem perm_insert (arena : Arena α) (value : α)
    : (arena.insert value).2.toList.Perm (((arena.insert value).1, value) :: arena.toList) := by
  have absent : ((arena.insert value).1, value) ∉ arena.toList := fun listed =>
    get_insert_fresh arena value value (mem_toList.mp listed)
  refine (List.perm_ext_iff_of_nodup (nodup_toList _)
    (List.nodup_cons.mpr ⟨absent, nodup_toList _⟩)).mpr ?_
  rintro ⟨handle, held⟩
  rw [List.mem_cons, mem_toList, mem_toList, get_insert, Prod.mk.injEq]

theorem perm_remove {handle : Handle} {value : α} (found : arena.get handle = .ok value)
    : arena.toList.Perm ((handle, value) :: (arena.remove handle).2.toList) := by
  have absent : (handle, value) ∉ (arena.remove handle).2.toList := fun listed =>
    (get_remove.mp (mem_toList.mp listed)).1 rfl
  refine (List.perm_ext_iff_of_nodup (nodup_toList _)
    (List.nodup_cons.mpr ⟨absent, nodup_toList _⟩)).mpr ?_
  rintro ⟨other, held⟩
  rw [List.mem_cons, mem_toList, mem_toList, get_remove, Prod.mk.injEq]
  constructor
  · intro listed
    by_cases same : other = handle
    · subst same
      exact .inl ⟨rfl, Except.ok.inj (listed.symm.trans found)⟩
    · exact .inr ⟨same, listed⟩
  · rintro (⟨rfl, rfl⟩ | ⟨_, listed⟩)
    · exact found
    · exact listed

end Arena

namespace HookRegistry

variable {registry : HookRegistry}

/-- The guards of a closure's hook and those of the others are all of the registry. -/
theorem perm_eraseFunction (single : (registry.functions.map Prod.fst).Nodup) (ref : ClosureRef)
    : ((registry.function? ref).toList.flatMap FunctionHook.guards
        ++ (registry.eraseFunction ref).guards).Perm registry.guards := by
  have entries := (perm_of_lookup single ref).flatMap_right fun entry => entry.2.guards
  rw [List.flatMap_append, List.flatMap_map] at entries
  simp only [guards, eraseFunction, ← List.append_assoc]
  exact entries.append_right _

/-- The guards of a metamethod's hook and those of the others are all of the registry. -/
theorem perm_eraseMetamethod (single : (registry.metamethods.map Prod.fst).Nodup)
    (slot : MetamethodSlot)
    : ((registry.metamethod? slot).toList.flatMap MetamethodHook.guards
        ++ (registry.eraseMetamethod slot).guards).Perm registry.guards := by
  have entries := (perm_of_lookup single slot).flatMap_right fun entry => entry.2.guards
  rw [List.flatMap_append, List.flatMap_map] at entries
  simp only [guards, eraseMetamethod]
  refine (List.perm_append_comm_assoc ..).trans (List.Perm.append_left _ ?_)
  exact entries

end HookRegistry

-----------------------------------------------------------------------------------------
-- Accounts
-----------------------------------------------------------------------------------------

/-- A guard as an entry of the table of retained values. -/
def Guard.entry (guard : Guard) : Handle × Value :=
  (guard.slot, guard.value)

/-- What others than the registries have retained. -/
structure Accounts where
  /-- Guards that the host, natives and operations hold. -/
  guards : List Guard := []
  /-- What was retained without a guard, by slot. -/
  direct : List (Handle × Value) := []

namespace Accounts

/-- The accounts with more guards. -/
def plus (accounts : Accounts) (guards : List Guard) : Accounts :=
  { accounts with guards := guards ++ accounts.guards }

/-- Every retained value has its slot from one guard or one retention without a guard, all guards are
out, and no closure and no metamethod has two hooks.
-/
structure Balanced (accounts : Accounts) (m : Machine) : Prop where
  slots : m.heap.retained.toList.Perm
    (accounts.direct ++ (accounts.guards ++ m.registered).map Guard.entry)
  out : m.guards = (accounts.guards ++ m.registered).length
  functions : (m.hooks.functions.map Prod.fst).Nodup
  metamethods : (m.hooks.metamethods.map Prod.fst).Nodup

namespace Balanced

variable {accounts left : Accounts} {m after : Machine} {guards : List Guard}

-----------------------------------------------------------------------------------------
-- Guards
-----------------------------------------------------------------------------------------

/-- Guards pass from one owner to another. -/
theorem trade (balanced : accounts.Balanced m)
    (retained : after.heap.retained = m.heap.retained) (out : after.guards = m.guards)
    (moved : (left.guards ++ after.registered).Perm (accounts.guards ++ m.registered))
    (direct : left.direct = accounts.direct)
    (functions : (after.hooks.functions.map Prod.fst).Nodup)
    (metamethods : (after.hooks.metamethods.map Prod.fst).Nodup)
    : left.Balanced after where
  slots := by
    rw [retained, direct]
    exact balanced.slots.trans ((moved.symm.map _).append_left _)
  out := by rw [out, balanced.out, moved.length_eq]
  functions := functions
  metamethods := metamethods

/-- The order of guards does not matter. -/
theorem perm (balanced : accounts.Balanced m) (permuted : accounts.guards.Perm left.guards)
    (direct : left.direct = accounts.direct)
    : left.Balanced m :=
  balanced.trade rfl rfl (permuted.symm.append_right _) direct balanced.functions
    balanced.metamethods

theorem hold (balanced : accounts.Balanced m) (value : Value)
    : (accounts.plus [(m.hold value).1]).Balanced (m.hold value).2 where
  slots := by
    refine (Arena.perm_insert m.heap.retained value).trans ?_
    exact (balanced.slots.cons _).trans List.perm_middle.symm
  out := congrArg Nat.succ balanced.out
  functions := balanced.functions
  metamethods := balanced.metamethods

/-- What a guard has retained is in its slot. -/
theorem get (balanced : accounts.Balanced m) {guard : Guard}
    (member : guard ∈ accounts.guards ++ m.registered)
    : m.heap.retained.get guard.slot = .ok guard.value :=
  Arena.mem_toList.mp (balanced.slots.mem_iff.mpr
    (List.mem_append_right _ (List.mem_map_of_mem (f := Guard.entry) member)))

theorem letGo {guard : Guard} (balanced : (accounts.plus [guard]).Balanced m)
    : accounts.Balanced (m.letGo guard) := by
  have found := balanced.get (.head _)
  have removed := Arena.perm_remove found
  refine ⟨?_, ?_, balanced.functions, balanced.metamethods⟩
  · have slots := removed.symm.trans (balanced.slots.trans List.perm_middle)
    exact slots.cons_inv
  · have out := balanced.out
    simp only [Machine.letGo, Arena.remove_of_get found, Option.isSome_some, if_true]
    rw [out]
    rfl

/-- Guards are given back one after the other. -/
theorem letGoAll (guards : List Guard) (balanced : (accounts.plus guards).Balanced m)
    : accounts.Balanced (m.letGoAll guards) := by
  induction guards generalizing m with
  | nil => exact balanced
  | cons guard guards ih =>
      have both : ((accounts.plus guards).plus [guard]).Balanced m := balanced
      exact ih both.letGo

-----------------------------------------------------------------------------------------
-- Registries
-----------------------------------------------------------------------------------------

/-- Guards move between those that are held and the hooks. -/
theorem changeHooks {others : List Guard} (balanced : (accounts.plus guards).Balanced m)
    (hooks : HookRegistry)
    (moved : (others ++ hooks.guards).Perm (guards ++ m.hooks.guards))
    (functions : (hooks.functions.map Prod.fst).Nodup)
    (metamethods : (hooks.metamethods.map Prod.fst).Nodup)
    : (accounts.plus others).Balanced { m with hooks } := by
  refine balanced.trade rfl rfl ?_ rfl functions metamethods
  classical
  refine List.perm_iff_count.mpr fun guard => ?_
  have moved := List.perm_iff_count.mp moved guard
  simp only [plus, Machine.registered, List.count_append] at moved ⊢
  omega

/-- The guards of a hook go to the registry, and those of the hook before it come out. -/
theorem insertFunction (ref : ClosureRef) (hook : FunctionHook)
    (balanced : (accounts.plus hook.guards).Balanced m)
    : (accounts.plus ((m.hooks.function? ref).toList.flatMap FunctionHook.guards)).Balanced
        { m with hooks := m.hooks.insertFunction ref hook } := by
  refine balanced.changeHooks _ ?_ (HookRegistry.nodup_insertFunction balanced.functions ref hook)
    balanced.metamethods
  have erased := HookRegistry.perm_eraseFunction balanced.functions ref
  refine ((m.hooks.guards_insertFunction ref hook).append_left _).trans ?_
  exact (List.perm_append_comm_assoc ..).trans (erased.append_left _)

theorem eraseFunction (ref : ClosureRef) (balanced : accounts.Balanced m)
    : (accounts.plus ((m.hooks.function? ref).toList.flatMap FunctionHook.guards)).Balanced
        { m with hooks := m.hooks.eraseFunction ref } :=
  have without : (accounts.plus []).Balanced m := balanced
  without.changeHooks _ (HookRegistry.perm_eraseFunction balanced.functions ref)
    (balanced.functions.sublist (List.filter_sublist.map _)) balanced.metamethods

theorem insertMetamethod (slot : MetamethodSlot) (hook : MetamethodHook)
    (balanced : (accounts.plus hook.guards).Balanced m)
    (unhooked : m.hooks.metamethod? slot = none)
    : accounts.Balanced { m with hooks := m.hooks.insertMetamethod slot hook } := by
  have inserted := m.hooks.guards_insertMetamethod slot hook
  rw [HookRegistry.eraseMetamethod_of_none _ unhooked] at inserted
  have changed : (accounts.plus []).Balanced
      { m with hooks := m.hooks.insertMetamethod slot hook } :=
    balanced.changeHooks _ inserted balanced.functions
      (HookRegistry.nodup_insertMetamethod balanced.metamethods slot hook)
  exact changed

theorem eraseMetamethod (slot : MetamethodSlot) (balanced : accounts.Balanced m)
    : (accounts.plus ((m.hooks.metamethod? slot).toList.flatMap MetamethodHook.guards)).Balanced
        { m with hooks := m.hooks.eraseMetamethod slot } :=
  have without : (accounts.plus []).Balanced m := balanced
  without.changeHooks _ (HookRegistry.perm_eraseMetamethod balanced.metamethods slot)
    balanced.functions (balanced.metamethods.sublist (List.filter_sublist.map _))

/-- A guard goes to the environments. -/
theorem changeEnvironments {guard : Guard} (balanced : (accounts.plus [guard]).Balanced m)
    (environments : EnvironmentCache)
    (moved : environments.guards.Perm (guard :: m.environments.guards))
    : accounts.Balanced { m with environments } := by
  refine balanced.trade rfl rfl ?_ rfl balanced.functions balanced.metamethods
  classical
  refine List.perm_iff_count.mpr fun other => ?_
  have moved := List.perm_iff_count.mp moved other
  simp only [plus, Machine.registered, List.count_append, List.count_cons, List.count_nil]
    at moved ⊢
  omega

/-- Guards move between those that are held and the connections. -/
theorem changeConnections {others : List Guard} (balanced : (accounts.plus guards).Balanced m)
    (connections : ConnectionRegistry)
    (moved : (others ++ ConnectionRegistry.guards connections).Perm
      (guards ++ ConnectionRegistry.guards m.connections))
    : (accounts.plus others).Balanced { m with connections } := by
  refine balanced.trade rfl rfl ?_ rfl balanced.functions balanced.metamethods
  classical
  refine List.perm_iff_count.mpr fun guard => ?_
  have moved := List.perm_iff_count.mp moved guard
  simp only [plus, Machine.registered, List.count_append] at moved ⊢
  omega

end Balanced
end Accounts
end HookMachine
