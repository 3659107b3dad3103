import HookMachine.Hook.Registry
import Mathlib.Data.List.Nodup

/-!
The entries of the registry of hooks, as they are looked up.
-/

namespace HookMachine

section Entries

variable {κ ν : Type} [BEq κ] [LawfulBEq κ] [DecidableEq κ]

/-- Dropping a key drops what is found under it and nothing else. -/
theorem lookup_filter_ne (entries : List (κ × ν)) (key other : κ)
    : (entries.filter fun entry => entry.1 ≠ key).lookup other
      = if other = key then none else entries.lookup other := by
  induction entries with
  | nil => simp
  | cons entry entries ih =>
      obtain ⟨held, value⟩ := entry
      by_cases gone : held = key
      · subst gone
        rw [List.filter_cons_of_neg (by simp), ih]
        split
        · rfl
        · rename_i different
          rw [List.lookup_cons, beq_false_of_ne different]
      · rw [List.filter_cons_of_pos (by simpa using gone), List.lookup_cons, List.lookup_cons, ih]
        by_cases same : other = held
        · subst same
          simp [gone]
        · simp [beq_false_of_ne same]

/-- An entry in place of all others under its key is found there, and nothing else changes. -/
theorem lookup_filter_ne_append (entries : List (κ × ν)) (key other : κ) (value : ν)
    : ((entries.filter fun entry => entry.1 ≠ key) ++ [(key, value)]).lookup other
      = if other = key then some value else entries.lookup other := by
  rw [List.lookup_append, lookup_filter_ne]
  by_cases same : other = key
  · subst same
    simp
  · have apart : [(key, value)].lookup other = none := by
      rw [List.lookup_cons, beq_false_of_ne same]
      rfl
    rw [if_neg same, if_neg same, apart, Option.or_none]

/-- If no key has two entries, the one under a key and those under others are all. -/
theorem perm_of_lookup {entries : List (κ × ν)} (single : (entries.map Prod.fst).Nodup) (key : κ)
    : ((entries.lookup key).toList.map (Prod.mk key)
        ++ entries.filter fun entry => entry.1 ≠ key).Perm entries := by
  induction entries with
  | nil => exact .refl _
  | cons entry entries ih =>
      obtain ⟨other, held⟩ := entry
      obtain ⟨absent, single⟩ := List.nodup_cons.mp single
      by_cases same : key = other
      · subst same
        have kept : entries.filter (fun entry => entry.1 ≠ key) = entries :=
          List.filter_eq_self.mpr fun entry member =>
            decide_eq_true fun same => absent (List.mem_map.mpr ⟨entry, member, same⟩)
        rw [List.filter_cons_of_neg (by simp), kept]
        simp
      · have later : ((other, held) :: entries).lookup key = entries.lookup key := by
          simp [List.lookup_cons, beq_false_of_ne same]
        rw [later, List.filter_cons_of_pos (by simpa using Ne.symm same)]
        exact List.perm_middle.trans ((ih single).cons _)

omit [BEq κ] [LawfulBEq κ] in
/-- No key has two entries after one takes the place of all others under its key. -/
theorem nodup_filter_ne_append {entries : List (κ × ν)} (single : (entries.map Prod.fst).Nodup)
    (key : κ) (value : ν)
    : (((entries.filter fun entry => entry.1 ≠ key) ++ [(key, value)]).map Prod.fst).Nodup := by
  rw [List.map_append]
  refine List.nodup_append.mpr ⟨single.sublist (List.filter_sublist.map _), by simp, ?_⟩
  intro other listed last member
  obtain ⟨entry, kept, rfl⟩ := List.mem_map.mp listed
  rw [List.mem_singleton.mp member]
  simpa using (List.mem_filter.mp kept).2

end Entries

namespace HookRegistry

variable (registry : HookRegistry)

theorem nodup_insertFunction {registry : HookRegistry}
    (single : (registry.functions.map Prod.fst).Nodup) (ref : ClosureRef) (hook : FunctionHook)
    : ((registry.insertFunction ref hook).functions.map Prod.fst).Nodup :=
  nodup_filter_ne_append single ref hook

theorem nodup_insertMetamethod {registry : HookRegistry}
    (single : (registry.metamethods.map Prod.fst).Nodup) (slot : MetamethodSlot)
    (hook : MetamethodHook)
    : ((registry.insertMetamethod slot hook).metamethods.map Prod.fst).Nodup :=
  nodup_filter_ne_append single slot hook

theorem function?_eraseFunction (ref other : ClosureRef)
    : (registry.eraseFunction ref).function? other
      = if other = ref then none else registry.function? other :=
  lookup_filter_ne registry.functions ref other

theorem function?_insertFunction (ref other : ClosureRef) (hook : FunctionHook)
    : (registry.insertFunction ref hook).function? other
      = if other = ref then some hook else registry.function? other :=
  lookup_filter_ne_append registry.functions ref other hook

theorem metamethod?_eraseMetamethod (slot other : MetamethodSlot)
    : (registry.eraseMetamethod slot).metamethod? other
      = if other = slot then none else registry.metamethod? other :=
  lookup_filter_ne registry.metamethods slot other

theorem metamethod?_insertMetamethod (slot other : MetamethodSlot) (hook : MetamethodHook)
    : (registry.insertMetamethod slot hook).metamethod? other
      = if other = slot then some hook else registry.metamethod? other :=
  lookup_filter_ne_append registry.metamethods slot other hook

/-- Erasing no entry leaves the registry. -/
theorem eraseMetamethod_of_none {slot : MetamethodSlot} (unhooked : registry.metamethod? slot = none)
    : registry.eraseMetamethod slot = registry := by
  have others
      : registry.metamethods.filter (fun entry => entry.1 ≠ slot) = registry.metamethods := by
    refine List.filter_eq_self.mpr fun entry member => ?_
    have other := List.lookup_eq_none_iff.mp unhooked entry member
    exact decide_eq_true fun same => bne_iff_ne.mp other same.symm
  rw [eraseMetamethod, others]

end HookRegistry
end HookMachine
