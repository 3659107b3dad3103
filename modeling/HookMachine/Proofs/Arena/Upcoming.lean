import HookMachine.Proofs.Arena.History

/-!
The handles that an arena is about to return, in the order in which insertions will return them.
They are fixed as long as nothing is removed, whatever is inserted; a handle that names a value is
none of them, and neither is one that is left over from an earlier filling of its slot.
-/

namespace HookMachine.Arena

variable {α : Type} {arena start : Arena α} {handle other : Handle} {k : Nat}

-----------------------------------------------------------------------------------------
-- Looking up handles after a change
-----------------------------------------------------------------------------------------

/-- Arenas of one heap look a handle up alike if it names the same in them. -/
theorem get_congr {after : Arena α} (heap : after.heap = arena.heap)
    (same : ∀ value, after.get handle = .ok value ↔ arena.get handle = .ok value)
    : after.get handle = arena.get handle := by
  have named (value : α) : after.get handle = .ok value
      ↔ (arena.get handle).toOption = some value := by
    rw [same]
    cases arena.get handle <;> simp [Except.toOption]
  have before (value : α) : arena.get handle = .ok value
      ↔ (arena.get handle).toOption = some value := by
    cases arena.get handle <;> simp [Except.toOption]
  rw [get_eq_of_iff named, heap, ← get_eq_of_iff before]

/-- What is looked up after an insertion. -/
theorem get_insert_eq (arena : Arena α) (value : α) (handle : Handle)
    : (arena.insert value).2.get handle
      = if handle = (arena.insert value).1 then .ok value else arena.get handle := by
  split
  · rename_i same
    rw [same, get_insert_self]
  · rename_i distinct
    refine get_congr (heap_insert arena value) fun other => ?_
    simp [get_insert, distinct]

/-- What is looked up after a change. -/
theorem get_modify_eq (arena : Arena α) (handle other : Handle) (change : α → α)
    : (arena.modify handle change).get other
      = if other = handle then (arena.get other).map change else arena.get other := by
  split
  · rename_i same
    subst same
    rcases found : arena.get other with miss | value
    · unfold modify
      simp [contains, found, Except.map]
    · exact get_modify.mpr ⟨value, found, by simp⟩
  · rename_i distinct
    refine get_congr (heap_modify arena handle change) fun value => ?_
    simp [get_modify, distinct]

-----------------------------------------------------------------------------------------
-- Upcoming handles
-----------------------------------------------------------------------------------------

/-- The handle that an insertion will return when `k` others come before it. -/
def upcoming (arena : Arena α) (k : Nat) : Handle :=
  match arena.vacant[k]? with
  | some index => { heap := arena.heap, index, generation := arena.generations.getD index 0 + 1 }
  | none =>
      { heap := arena.heap, index := arena.generations.size + (k - arena.vacant.length)
        generation := 0 }

theorem heap_upcoming (arena : Arena α) (k : Nat) : (arena.upcoming k).heap = arena.heap := by
  unfold upcoming
  split <;> rfl

theorem insert_fst (arena : Arena α) (value : α) : (arena.insert value).1 = arena.upcoming 0 := by
  unfold insert upcoming generations
  split
  · rename_i index vacant vacancy
    simp only [vacancy, List.getElem?_cons_zero, Array.getD_eq_getD_getElem?, Array.getElem?_map]
    cases arena.slots[index]? <;> rfl
  · rename_i vacancy
    simp [vacancy]

/-- Each insertion takes the first of them. -/
theorem upcoming_insert (arena : Arena α) (value : α) (k : Nat)
    : (arena.insert value).2.upcoming k = arena.upcoming (k + 1) := by
  unfold insert
  split
  · rename_i index vacant vacancy
    simp only [upcoming, vacancy, List.getElem?_cons_succ]
    rcases next : vacant[k]? with _ | later
    · simp [generations]
    · have distinct : index ≠ later := by
        rintro rfl
        have nodup := arena.accounted.nodup
        rw [vacancy] at nodup
        exact (List.nodup_cons.mp nodup).1 (List.mem_of_getElem? next)
      simp [generations, Array.getD_eq_getD_getElem?, distinct]
  · rename_i vacancy
    simp only [upcoming, vacancy, List.getElem?_nil, List.length_nil, generations, Array.size_map,
      Array.size_push]
    congr 1
    omega

/-- Changing a value in its place changes no handle. -/
theorem upcoming_modify (arena : Arena α) (handle : Handle) (change : α → α) (k : Nat)
    : (arena.modify handle change).upcoming k = arena.upcoming k := by
  have vacant : (arena.modify handle change).vacant = arena.vacant := by
    unfold modify
    split <;> rfl
  rw [upcoming, upcoming, vacant, generations_modify, heap_modify]

theorem generations_getElem? {index : Nat} (vacant : index ∈ arena.vacant)
    : ∃ generation, arena.generations[index]? = some generation
        ∧ arena.slots[index]? = some { generation, content := none } := by
  have empty := (arena.accounted.mem_iff index).mp vacant
  obtain ⟨⟨generation, content⟩, held, rfl⟩ := Option.map_eq_some_iff.mp empty
  exact ⟨generation, by simp [generations, held], held⟩

/-- The handle of the filling that comes next of a vacant slot, or of a slot that does not exist yet. -/
theorem upcoming_cases (arena : Arena α) (k : Nat)
    : (∃ index generation, arena.vacant[k]? = some index
        ∧ arena.slots[index]? = some { generation, content := none }
        ∧ arena.generations[index]? = some generation
        ∧ arena.upcoming k = { heap := arena.heap, index, generation := generation + 1 })
      ∨ arena.vacant.length ≤ k
        ∧ arena.upcoming k
          = { heap := arena.heap
              index := arena.generations.size + (k - arena.vacant.length), generation := 0 } := by
  rcases vacancy : arena.vacant[k]? with _ | index
  · refine .inr ⟨List.getElem?_eq_none_iff.mp vacancy, ?_⟩
    rw [upcoming, vacancy]
  · obtain ⟨generation, counted, empty⟩ := generations_getElem? (List.mem_of_getElem? vacancy)
    refine .inl ⟨index, generation, rfl, empty, counted, ?_⟩
    rw [upcoming, vacancy]
    simp [Array.getD_eq_getD_getElem?, counted]

/-- No two of them are the same. -/
theorem upcoming_injective (arena : Arena α) : Function.Injective arena.upcoming := by
  intro j k same
  have index := congrArg Handle.index same
  rcases arena.upcoming_cases j with ⟨i, _, first, _, counted, also⟩ | ⟨long, also⟩ <;>
    rcases arena.upcoming_cases k with ⟨l, _, second, _, other, too⟩ | ⟨longer, too⟩ <;>
    simp only [also, too] at index
  · subst index
    have bound := (List.getElem?_eq_some_iff.mp first).1
    exact (List.getElem?_inj bound arena.accounted.nodup).mp (first.trans second.symm)
  · have bound := (Array.getElem?_eq_some_iff.mp counted).1
    omega
  · have bound := (Array.getElem?_eq_some_iff.mp other).1
    omega
  · omega

/-- An arena to which `k` values have been added, and from which none was removed. -/
structure Grown (start : Arena α) (k : Nat) (now : Arena α) : Prop where
  upcoming (j : Nat) : now.upcoming j = start.upcoming (j + k)
  /-- What is there was there before, or was added. -/
  made {handle : Handle} : now.contains handle = true
    → start.contains handle = true ∨ ∃ j, handle = start.upcoming j

theorem Grown.refl (start : Arena α) : start.Grown 0 start :=
  ⟨fun _ => rfl, .inl⟩

theorem Grown.insert {now : Arena α} (grown : start.Grown k now) (value : α)
    : start.Grown (k + 1) (now.insert value).2 := by
  refine ⟨fun j => ?_, fun live => ?_⟩
  · rw [upcoming_insert, grown.upcoming]
    congr 1
    omega
  · obtain ⟨_, found⟩ := contains_iff.mp live
    rcases get_insert.mp found with ⟨rfl, -⟩ | before
    · exact .inr ⟨_, (insert_fst now value).trans (grown.upcoming 0)⟩
    · exact grown.made (contains_iff.mpr ⟨_, before⟩)

theorem Grown.modify {now : Arena α} (grown : start.Grown k now) (handle : Handle)
    (change : α → α)
    : start.Grown k (now.modify handle change) := by
  refine ⟨fun j => (upcoming_modify ..).trans (grown.upcoming j), fun live => ?_⟩
  exact grown.made (contains_modify .. ▸ live)

end HookMachine.Arena
