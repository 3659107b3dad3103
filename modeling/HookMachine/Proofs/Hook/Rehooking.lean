import HookMachine.Proofs.Hook.Slots
import HookMachine.Proofs.Soundness.Closed

/-!
Hooks of metamethod slots that fail. No table changes, and all stays as it was but in one case: a
slot that is hooked already loses its hook when it is hooked again with a function of another
heap, and what it held before its first hook is forgotten.
-/

namespace HookMachine

namespace Machine

/-- Hooks are in a machine as in another, and as many values are kept alive. -/
structure SameHooks (m after : Machine) : Prop where
  hooks : after.hooks = m.hooks
  retained : after.heap.retained.size = m.heap.retained.size
  guards : after.guards = m.guards

/-- A slot lost its hook, with the values that it kept alive. -/
structure LosesHook (m after : Machine) (slot : MetamethodSlot) : Prop where
  hooked : (m.hooks.metamethod? slot).isSome = true
  hooks : after.hooks = m.hooks.eraseMetamethod slot
  unhooked : after.hooks.metamethod? slot = none
  retained : after.heap.retained.size + 3 = m.heap.retained.size
  guards : after.guards = m.guards - 3

end Machine

variable {m : Machine} {own : List Guard} {slot : MetamethodSlot}

namespace Machine

theorem tables_slotAbandoned (m : Machine) (slot : MetamethodSlot)
    : (m.slotAbandoned slot).heap.tables = m.heap.tables := by
  have held (value : Value) (m : Machine) : (m.hold value).2.heap.tables = m.heap.tables := rfl
  simp only [slotAbandoned, tables_letGoAll, held, tables_previousTaken, tables_duplicated]

theorem hooks_slotAbandoned (m : Machine) (slot : MetamethodSlot)
    : (m.slotAbandoned slot).hooks = m.hooks.eraseMetamethod slot := by
  simp only [slotAbandoned, hooks_letGoAll, hooks_hold, hooks_previousTaken, hooks_duplicated]

/-- What was retained for the hook of a slot without one is given back. -/
theorem retained_slotAbandoned_of_none (unhooked : m.hooks.metamethod? slot = none)
    : (m.slotAbandoned slot).heap.retained.size = m.heap.retained.size
      ∧ (m.slotAbandoned slot).guards = m.guards := by
  let former := m.duplicated (m.slotValue slot)
  let previous := former.2.hold (m.slotValue slot)
  let held := previous.2.hold former.1
  have abandoned : m.slotAbandoned slot = held.2.letGoAll [held.1, previous.1] := by
    simp only [slotAbandoned, previousTaken, hooks_duplicated, unhooked]
    rfl
  have none : Ledger former.2.heap.retained [] := ⟨.nil, by simp⟩
  have guarded : Ledger held.2.heap.retained [held.1, previous.1] := (none.insert _).insert _
  obtain ⟨size, out⟩ := guarded.letGoAll
  have grown : held.2.heap.retained.size = m.heap.retained.size + 2 := by
    refine (Arena.size_insert ..).trans (congrArg (· + 1) ((Arena.size_insert ..).trans ?_))
    rw [retained_duplicated]
  have out_grown : held.2.guards = m.guards + 2 := by
    change former.2.guards + 1 + 1 = _
    rw [guards_duplicated]
  rw [abandoned]
  constructor
  · rw [size, grown]
    rfl
  · rw [out, out_grown]
    rfl

/-- The guards of a slot's hook own slots of their own. -/
theorem ledger_of_metamethod? {rules : Rules} (sound : rules.Sound own m) {hook : MetamethodHook}
    (hooked : m.hooks.metamethod? slot = some hook)
    : Ledger m.heap.retained [hook.former, hook.replacement, hook.previous] := by
  have erased := m.hooks.guards_eraseMetamethod slot
  rw [hooked] at erased
  have own_guards : hook.guards.Subperm m.hooks.guards :=
    (List.sublist_append_left ..).subperm.trans (by simpa using erased)
  have among : m.hooks.guards.Subperm (own ++ m.registered) :=
    ((List.sublist_append_right m.environments.guards _).trans
      ((List.sublist_append_left _ _).trans (List.sublist_append_right own _))).subperm
  have rotated : ([hook.former, hook.replacement, hook.previous]).Perm hook.guards :=
    (List.perm_append_comm : List.Perm ([_, _] ++ [_]) _)
  exact sound.ledger.subperm (rotated.subperm.trans (own_guards.trans among))

/-- What was retained for the hook of a slot is given back with it. -/
theorem retained_slotAbandoned_of_some {rules : Rules} (sound : rules.Sound own m)
    {hook : MetamethodHook} (hooked : m.hooks.metamethod? slot = some hook)
    : (m.slotAbandoned slot).heap.retained.size + 3 = m.heap.retained.size
      ∧ (m.slotAbandoned slot).guards = m.guards - 3 := by
  let former := m.duplicated (m.slotValue slot)
  let erased : Machine := { former.2 with hooks := m.hooks.eraseMetamethod slot }
  let freed := erased.letGoAll [hook.former, hook.replacement]
  let held := freed.hold former.1
  have abandoned : m.slotAbandoned slot = held.2.letGoAll [held.1, hook.previous] := by
    simp only [slotAbandoned, previousTaken, hooks_duplicated, hooked]
    rfl
  have guarded : Ledger former.2.heap.retained [hook.former, hook.replacement, hook.previous] := by
    rw [retained_duplicated]
    exact ledger_of_metamethod? sound hooked
  have least : 3 ≤ m.heap.retained.size := by
    have bound := guarded.length_le
    rwa [retained_duplicated] at bound
  have first : Ledger erased.heap.retained [hook.former, hook.replacement] :=
    guarded.subperm (List.sublist_append_left [_, _] [_]).subperm
  obtain ⟨freed_size, freed_out⟩ : freed.heap.retained.size = erased.heap.retained.size - 2
      ∧ freed.guards = erased.guards - 2 :=
    first.letGoAll
  have left : Ledger freed.heap.retained [hook.previous] := by
    have once : Ledger (erased.letGo hook.former).heap.retained [hook.replacement, hook.previous] :=
      Ledger.remove guarded
    exact once.remove
  have second : Ledger held.2.heap.retained [held.1, hook.previous] := left.insert former.1
  obtain ⟨size, out⟩ : (held.2.letGoAll [held.1, hook.previous]).heap.retained.size
        = held.2.heap.retained.size - 2
      ∧ (held.2.letGoAll [held.1, hook.previous]).guards = held.2.guards - 2 :=
    second.letGoAll
  have grown : held.2.heap.retained.size = freed.heap.retained.size + 1 := Arena.size_insert ..
  have out_grown : held.2.guards = freed.guards + 1 := rfl
  have same : erased.heap.retained = m.heap.retained := m.retained_duplicated _
  have out_same : erased.guards = m.guards := m.guards_duplicated _
  rw [abandoned, size, out, grown, out_grown, freed_size, freed_out, same, out_same]
  omega

end Machine

/-- Hooking a slot that fails leaves every table as it was, and everything else that has to do with
hooks too, unless the slot was hooked and the replacement belongs to another heap.
-/
theorem Hook.installMetamethod_failed {s : Situation} (reached : s.Reached) {object : Value}
    {name : String} {replacement : Value} {halt : Halt Failure} {after : Machine}
    (failed : installMetamethod object name replacement s.machine = .error halt after)
    : after.heap.tables = s.machine.heap.tables
      ∧ (s.machine.SameHooks after
        ∨ ∃ mt, Vm.metatable object s.machine = .ok (some mt) s.machine
            ∧ s.machine.heap.owns replacement = false ∧ s.machine.LosesHook after (mt, name)
            ∧ restoreMetamethod object name after = .ok false after) := by
  have sound := reached.sound.sound
  rcases installMetamethod_cases sound.minted object name replacement with
    ⟨_, _, _, _, _, _, ran⟩ | ⟨mt, attached, foreign, ran⟩ | ⟨_, ran⟩
  · cases failed.symm.trans ran
  · obtain ⟨-, rfl⟩ := EStateM.Result.error.inj (failed.symm.trans ran)
    have hooks := s.machine.hooks_slotAbandoned (mt, name)
    refine ⟨s.machine.tables_slotAbandoned _, ?_⟩
    cases entry : s.machine.hooks.metamethod? (mt, name) with
    | none =>
        obtain ⟨retained, guards⟩ := Machine.retained_slotAbandoned_of_none entry
        rw [HookRegistry.eraseMetamethod_of_none _ entry] at hooks
        exact .inl ⟨hooks, retained, guards⟩
    | some hook =>
        obtain ⟨retained, guards⟩ := Machine.retained_slotAbandoned_of_some sound entry
        have unhooked : (s.machine.slotAbandoned (mt, name)).hooks.metamethod? (mt, name) = none := by
          rw [hooks, HookRegistry.metamethod?_eraseMetamethod, if_pos rfl]
        have loses : s.machine.LosesHook (s.machine.slotAbandoned (mt, name)) (mt, name) :=
          ⟨by rw [entry]; rfl, hooks, unhooked, retained, guards⟩
        refine .inr ⟨mt, attached, foreign, loses, ?_⟩
        refine restoreMetamethod_of_none ?_ unhooked
        exact metatable_of_tables (s.machine.tables_slotAbandoned _) attached
  · obtain ⟨-, rfl⟩ := EStateM.Result.error.inj (failed.symm.trans ran)
    exact ⟨rfl, .inl ⟨rfl, rfl, rfl⟩⟩

/-- A slot that is hooked is hooked again with a function of another heap. -/
theorem Hook.installMetamethod_failed_rehook
    : ∃ (s : Situation) (object replacement : Value) (name : String) (halt : Halt Failure)
        (after : Machine) (mt : TableRef),
        installMetamethod object name replacement s.machine = .error halt after
        ∧ after.heap.tables = s.machine.heap.tables
        ∧ s.machine.LosesHook after (mt, name) := by
  let object : TableRef := ⟨⟨1, 1, 0⟩⟩
  let mt : TableRef := ⟨⟨1, 2, 0⟩⟩
  let native (heap index : Nat) : Value := .native ⟨⟨heap, index, 0⟩⟩
  let requests : List Request :=
    [.newTable, .newTable, .rawSet mt (.string "__index") (native 1 0),
      .setMetatable object (some mt), .hookMetamethod (.table object) "__index" (native 1 1)]
  let s : Situation := ⟨(Machine.create 1 {}).served requests, [], []⟩
  have reached : s.Reached := Situation.Reached.served rfl ⟨1, {}, .refl⟩
  have hooked : s.machine.hooks.metamethods.isEmpty = false := by
    decide +kernel
  have lost
      : (match installMetamethod (.table object) "__index" (native 2 0) s.machine with
          | .ok _ _ => false
          | .error _ after => after.hooks.metamethods.isEmpty) = true := by
    decide +kernel
  rcases ran : installMetamethod (.table object) "__index" (native 2 0) s.machine with
    ⟨_, after⟩ | ⟨halt, after⟩
  · rw [ran] at lost
    cases lost
  · rw [ran] at lost
    obtain ⟨tables, same | ⟨other, attached, _, loses, _⟩⟩ := installMetamethod_failed reached ran
    · rw [← same.hooks] at hooked
      exact absurd lost (hooked ▸ Bool.false_ne_true)
    · exact ⟨s, _, _, _, halt, after, other, ran, tables, loses⟩

end HookMachine
