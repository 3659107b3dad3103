import HookMachine.Machine
import Mathlib.Data.List.Flatten
import Mathlib.Data.List.Perm.Subperm

/-!
Who owns which slot of the retained values. Every guard of a registry, and every guard that
someone else is accountable for, owns a slot of its own that holds its value; what one owner
does to its slots leaves those of the others alone.
-/

namespace HookMachine

/-- Guards own slots of their own, and these hold their values. -/
structure Ledger (retained : Arena Value) (guards : List Guard) : Prop where
  distinct : (guards.map Guard.slot).Nodup
  held : ∀ guard ∈ guards, retained.get guard.slot = .ok guard.value

namespace Ledger

variable {retained : Arena Value} {guards fewer : List Guard} {guard : Guard}

theorem subperm (ledger : Ledger retained guards) (within : fewer.Subperm guards)
    : Ledger retained fewer := by
  obtain ⟨chosen, permuted, sublist⟩ := within
  refine ⟨?_, fun guard member => ledger.held guard (sublist.subset (permuted.mem_iff.mpr member))⟩
  exact (permuted.map _).nodup_iff.mp ((sublist.map _).nodup ledger.distinct)

/-- Retaining a value gives its slot to a new owner. -/
theorem insert (ledger : Ledger retained guards) (value : Value)
    : Ledger (retained.insert value).2 ({ slot := (retained.insert value).1, value } :: guards)
      := by
  refine ⟨List.nodup_cons.mpr ⟨fun taken => ?_, ledger.distinct⟩, fun guard member => ?_⟩
  · obtain ⟨guard, member, same⟩ := List.mem_map.mp taken
    refine Arena.get_insert_fresh retained value guard.value ?_
    exact (congrArg retained.get same).symm.trans (ledger.held guard member)
  · rcases List.mem_cons.mp member with rfl | member
    · exact Arena.get_insert_self retained value
    · exact Arena.get_insert_of_get value (ledger.held guard member)

/-- Giving back a slot leaves those of the others. -/
theorem remove (ledger : Ledger retained (guard :: guards))
    : Ledger (retained.remove guard.slot).2 guards := by
  obtain ⟨apart, distinct⟩ := List.nodup_cons.mp ledger.distinct
  refine ⟨distinct, fun other member => Arena.get_remove.mpr ⟨fun same => apart ?_, ?_⟩⟩
  · exact same ▸ List.mem_map_of_mem member
  · exact ledger.held other (List.mem_cons_of_mem _ member)

/-- There are as many retained values as guards that own their slots, by induction over the guards.
-/
theorem length_le (ledger : Ledger retained guards) : guards.length ≤ retained.size := by
  induction guards generalizing retained with
  | nil => exact Nat.zero_le _
  | cons guard guards ih =>
      have found := ledger.held guard (.head _)
      have rest := ih ledger.remove
      have some := Arena.size_pos_of_get found
      rw [Arena.size_remove_of_get found] at rest
      rw [List.length_cons]
      omega

/-- Giving back guards that own their slots gives back as many slots, by induction over the
guards.
-/
theorem letGoAll {m : Machine} (ledger : Ledger m.heap.retained guards)
    : (m.letGoAll guards).heap.retained.size = m.heap.retained.size - guards.length
      ∧ (m.letGoAll guards).guards = m.guards - guards.length := by
  induction guards generalizing m with
  | nil => exact ⟨rfl, rfl⟩
  | cons guard guards ih =>
      have found := ledger.held guard (.head _)
      have size : (m.letGo guard).heap.retained.size = m.heap.retained.size - 1 :=
        Arena.size_remove_of_get found
      have out : (m.letGo guard).guards = m.guards - 1 := by
        simp only [Machine.letGo, Arena.remove_of_get found]
        rfl
      have rest := @ih (m.letGo guard) ledger.remove
      rw [size, out] at rest
      rw [List.length_cons, Nat.add_comm guards.length, ← Nat.sub_sub, ← Nat.sub_sub]
      exact rest

end Ledger

-----------------------------------------------------------------------------------------
-- What registries own
-----------------------------------------------------------------------------------------

/-- A list of keyed entries holds the entry found under a key besides those under others. -/
theorem subperm_of_lookup {κ ν : Type} [BEq κ] [LawfulBEq κ] [DecidableEq κ]
    {entries : List (κ × ν)} {key : κ} {value : ν} (found : entries.lookup key = some value)
    : ((key, value) :: entries.filter fun entry => entry.1 ≠ key).Subperm entries := by
  induction entries with
  | nil => simp at found
  | cons entry entries ih =>
      obtain ⟨other, held⟩ := entry
      by_cases same : key = other
      · subst same
        have held_value : held = value := by simpa using found
        subst held_value
        rw [List.filter_cons_of_neg (by simp)]
        exact (List.subperm_cons _).mpr List.filter_sublist.subperm
      · have later : entries.lookup key = some value := by
          simpa [List.lookup_cons, beq_false_of_ne same] using found
        rw [List.filter_cons_of_pos (by simpa using Ne.symm same)]
        exact (List.Perm.swap ..).subperm.trans ((List.subperm_cons _).mpr (ih later))

theorem subperm_flatMap {α β : Type} {some all : List α} (f : α → List β)
    (within : some.Subperm all)
    : (some.flatMap f).Subperm (all.flatMap f) := by
  obtain ⟨chosen, permuted, sublist⟩ := within
  exact ⟨chosen.flatMap f, permuted.flatMap_right f, sublist.flatMap f⟩

namespace EnvironmentCache

theorem guards_fallback (cache : EnvironmentCache) (guard : Guard)
    : ({ cache with fallback := some guard } : EnvironmentCache).guards.Subperm
        (guard :: cache.guards) := by
  simp only [guards, Option.toList_some, List.append_assoc, List.singleton_append]
  exact (List.subperm_cons _).mpr (List.sublist_append_right ..).subperm

theorem guards_insert (cache : EnvironmentCache) (guard : Guard) (owner : EnvironmentOwner)
    : (cache.insert guard owner).guards.Subperm (guard :: cache.guards) := by
  cases owner with
  | runtime =>
      simp only [guards, insert, Option.toList_some, List.append_assoc, List.singleton_append]
      refine List.perm_middle.subperm.trans ((List.subperm_cons _).mpr ?_)
      exact ((List.sublist_append_right ..).append_left _).subperm
  | script id =>
      have others
          : (cache.fallback.toList ++ cache.shared.toList ++ cache.scripts.map (·.2)
              ++ guard :: cache.modules.map (·.2)).Perm
            (guard :: (cache.fallback.toList ++ cache.shared.toList ++ cache.scripts.map (·.2)
              ++ cache.modules.map (·.2))) :=
        List.perm_middle
      simpa only [guards, insert, List.map_append, List.map_cons, List.map_nil,
        List.append_assoc, List.cons_append, List.nil_append] using others.subperm
  | module id =>
      simp only [guards, insert, List.map_append, List.map_cons, List.map_nil]
      rw [← List.append_assoc]
      exact (List.perm_append_singleton ..).subperm

end EnvironmentCache

namespace HookRegistry

variable (registry : HookRegistry)

/-- The guards of a closure's hook are among those of the registry, apart from what is left
without it.
-/
theorem guards_eraseFunction (ref : ClosureRef)
    : ((registry.function? ref).toList.flatMap FunctionHook.guards
        ++ (registry.eraseFunction ref).guards).Subperm registry.guards := by
  simp only [guards, eraseFunction, ← List.append_assoc]
  refine (List.subperm_append_right _).mpr ?_
  rcases found : registry.function? ref with _ | hook
  · exact subperm_flatMap _ List.filter_sublist.subperm
  · exact subperm_flatMap (fun entry => entry.2.guards) (subperm_of_lookup found)

/-- The guards of a metamethod's hook are among those of the registry, apart from what is left
without it.
-/
theorem guards_eraseMetamethod (slot : MetamethodSlot)
    : ((registry.metamethod? slot).toList.flatMap MetamethodHook.guards
        ++ (registry.eraseMetamethod slot).guards).Subperm registry.guards := by
  simp only [guards, eraseMetamethod]
  refine (List.perm_append_comm_assoc ..).subperm.trans ?_
  refine (List.subperm_append_left _).mpr ?_
  rcases found : registry.metamethod? slot with _ | hook
  · exact subperm_flatMap _ List.filter_sublist.subperm
  · exact subperm_flatMap (fun entry => entry.2.guards) (subperm_of_lookup found)

theorem guards_insertFunction (ref : ClosureRef) (hook : FunctionHook)
    : (registry.insertFunction ref hook).guards.Perm
        (hook.guards ++ (registry.eraseFunction ref).guards) := by
  simp only [guards, insertFunction, eraseFunction, List.flatMap_append, List.flatMap_cons,
    List.flatMap_nil, List.append_nil, ← List.append_assoc]
  exact List.perm_append_comm.append_right _

theorem guards_insertMetamethod (slot : MetamethodSlot) (hook : MetamethodHook)
    : (registry.insertMetamethod slot hook).guards.Perm
        (hook.guards ++ (registry.eraseMetamethod slot).guards) := by
  simp only [guards, insertMetamethod, eraseMetamethod, List.flatMap_append, List.flatMap_cons,
    List.flatMap_nil, List.append_nil, ← List.append_assoc]
  exact List.perm_append_comm

end HookRegistry

namespace ConnectionRegistry

variable (registry : ConnectionRegistry)

theorem guards_push (connection : Connection)
    : (guards (registry.push connection)).Perm
        (connection.callback.toList ++ guards registry) := by
  simp only [guards, Array.toList_push, List.filterMap_append]
  refine List.perm_append_comm.trans (.of_eq ?_)
  cases found : connection.callback <;> simp [found]

/-- Changes of a connection that leave its callback alone leave the guards alone. -/
theorem guards_setEnabled (index : Nat) (enabled : Bool)
    : guards (setEnabled registry index enabled) = guards registry := by
  have callbacks
      : (setEnabled registry index enabled).toList.map Connection.callback
        = registry.toList.map Connection.callback := by
    refine List.ext_getElem? fun other => ?_
    simp only [setEnabled, Array.toList_modify, List.getElem?_map, List.getElem?_modify]
    cases registry.toList[other]? with
    | none => rfl
    | some connection =>
        simp only [Option.map_eq_map, Option.map_some, Option.some.injEq]
        split
        · split <;> rfl
        · rfl
  have guards_eq (connections : ConnectionRegistry)
      : guards connections = (connections.toList.map Connection.callback).filterMap id := by
    simp [guards, List.filterMap_map]
  rw [guards_eq, callbacks, ← guards_eq]

/-- The guard of a connection is among those of the registry, apart from what is left when it
is disconnected.
-/
theorem guards_disconnect (index : Nat)
    : ((registry[index]? >>= (·.callback)).toList ++ guards (disconnect registry index)).Perm
        (guards registry) := by
  obtain ⟨connections⟩ := registry
  simp only [guards, disconnect, Array.toList_modify, List.getElem?_toArray]
  by_cases bound : index < connections.length
  · have split : connections
        = connections.take index ++ connections[index] :: connections.drop (index + 1) := by
      rw [← List.drop_eq_getElem_cons, List.take_append_drop]
    rw [List.modify_eq_take_cons_drop bound, List.getElem?_eq_getElem bound]
    conv => rhs; rw [split]
    simp only [Option.bind_eq_bind, Option.bind_some, List.filterMap_append, List.filterMap_cons]
    cases connections[index].callback with
    | none => exact .refl _
    | some guard =>
        rw [Option.toList_some, List.singleton_append]
        exact List.perm_middle.symm
  · rw [List.getElem?_eq_none (Nat.le_of_not_lt bound),
      List.modify_eq_self (Nat.le_of_not_lt bound)]
    exact .refl _

end ConnectionRegistry
end HookMachine
