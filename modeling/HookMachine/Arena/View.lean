import HookMachine.Arena

/-!
What the operations of an arena do, said by `get`: each changes what its own handle names,
and nothing else.
-/

namespace HookMachine.Arena

variable {α : Type}

@[simp]
theorem get_empty (heap : Nat) (handle : Handle) (value : α)
    : (empty heap : Arena α).get handle ≠ .ok value := by
  simp [get_eq_ok, empty]

theorem contains_iff {arena : Arena α} {handle : Handle}
    : arena.contains handle = true ↔ ∃ value, arena.get handle = .ok value := by
  unfold contains
  cases arena.get handle <;> simp

theorem holds_iff {arena : Arena α} {handle : Handle} {test : α → Bool}
    : arena.holds handle test = true
      ↔ ∃ value, arena.get handle = .ok value ∧ test value = true := by
  unfold holds
  cases arena.get handle <;> simp

/-- A live handle was minted by its arena. -/
theorem heap_of_get {arena : Arena α} {handle : Handle} {value : α}
    (found : arena.get handle = .ok value)
    : handle.heap = arena.heap :=
  (get_eq_ok.mp found).1

@[simp]
theorem heap_insert (arena : Arena α) (value : α) : (arena.insert value).2.heap = arena.heap := by
  unfold insert
  split <;> rfl

@[simp]
theorem heap_modify (arena : Arena α) (handle : Handle) (change : α → α)
    : (arena.modify handle change).heap = arena.heap := by
  unfold modify
  split <;> rfl

@[simp]
theorem heap_remove (arena : Arena α) (handle : Handle)
    : (arena.remove handle).2.heap = arena.heap := by
  unfold remove
  split <;> rfl

@[simp]
theorem heap_map (arena : Arena α) (change : α → α) : (arena.map change).heap = arena.heap :=
  rfl

/-- The handle that an insertion returns named nothing before. -/
theorem get_insert_fresh (arena : Arena α) (value other : α)
    : arena.get (arena.insert value).1 ≠ .ok other := by
  intro found
  have held := (get_eq_ok.mp found).2
  unfold insert at held
  split at held
  · rename_i index vacant vacancy
    have empty := (arena.accounted.mem_iff index).mp (by rw [vacancy]; exact List.mem_cons_self)
    rw [held] at empty
    simp at empty
  · simp at held

/-- An insertion adds its handle and keeps every other: the slot it fills was empty. -/
theorem get_insert {arena : Arena α} {value other : α} {handle : Handle}
    : (arena.insert value).2.get handle = .ok other
      ↔ (handle = (arena.insert value).1 ∧ other = value) ∨ arena.get handle = .ok other := by
  obtain ⟨heap, index, generation⟩ := handle
  simp only [get_eq_ok, heap_insert]
  unfold insert
  split
  · rename_i first vacant vacancy
    have empty := (arena.accounted.mem_iff first).mp (by rw [vacancy]; exact List.mem_cons_self)
    have bound := arena.accounted.lt_size (by rw [vacancy]; exact List.mem_cons_self)
    simp only [Array.getElem?_setIfInBounds, Handle.mk.injEq]
    by_cases same : first = index
    · subst same
      have unheld (generation : UInt32) : arena.slots[first]? ≠ some ⟨generation, some other⟩ := by
        intro held
        simp [held] at empty
      simp only [bound, if_true, Option.some.injEq, Slot.mk.injEq, unheld, and_false, or_false,
        true_and]
      grind
    · have distinct : index ≠ first := Ne.symm same
      rw [if_neg same]
      simp only [distinct, false_and, and_false, false_or]
  · simp only [Array.getElem?_push, Handle.mk.injEq]
    by_cases same : index = arena.slots.size
    · subst same
      simp only [if_true, Option.some.injEq, Slot.mk.injEq, true_and, Array.getElem?_size]
      grind
    · simp [same]

/-- What was there before an insertion is there after it. -/
theorem get_insert_of_get {arena : Arena α} {handle : Handle} {other : α} (value : α)
    (found : arena.get handle = .ok other)
    : (arena.insert value).2.get handle = .ok other :=
  get_insert.mpr (.inr found)

@[simp]
theorem get_insert_self (arena : Arena α) (value : α)
    : (arena.insert value).2.get (arena.insert value).1 = .ok value :=
  get_insert.mpr (.inl ⟨rfl, rfl⟩)

/-- A change reaches the value that its handle names and no other. -/
theorem get_modify {arena : Arena α} {handle other : Handle} {change : α → α} {value : α}
    : (arena.modify handle change).get other = .ok value
      ↔ ∃ before, arena.get other = .ok before
          ∧ value = if other = handle then change before else before := by
  by_cases live : arena.contains handle
  · obtain ⟨held, found⟩ := contains_iff.mp live
    obtain ⟨minted, filled⟩ := get_eq_ok.mp found
    have generations {before : α}
        (other_filled : arena.slots[handle.index]? = some ⟨other.generation, some before⟩)
        : other.generation = handle.generation ∧ before = held := by
      simpa [other_filled] using filled
    simp only [get_eq_ok, heap_modify]
    unfold modify
    rw [if_pos live]
    simp only [Array.getElem?_modify]
    by_cases same : handle.index = other.index
    · rw [if_pos same, ← same, filled]
      obtain ⟨heap, index, generation⟩ := other
      obtain ⟨heap', index', generation'⟩ := handle
      subst same
      simp only [Option.map_some, Option.some.injEq, Slot.mk.injEq, Handle.mk.injEq, true_and] at *
      grind
    · have distinct : other ≠ handle := fun equal => same (equal ▸ rfl)
      simp [same, distinct]
  · have absent (before : α) : arena.get handle ≠ .ok before :=
      fun found => live (contains_iff.mpr ⟨before, found⟩)
    unfold modify
    rw [if_neg live]
    constructor
    · intro found
      have distinct : other ≠ handle := fun equal => absent value (equal ▸ found)
      exact ⟨value, found, by rw [if_neg distinct]⟩
    · rintro ⟨before, found, rfl⟩
      have distinct : other ≠ handle := fun equal => absent before (equal ▸ found)
      rwa [if_neg distinct]

/-- A removal takes its handle away and no other. -/
theorem get_remove {arena : Arena α} {handle other : Handle} {value : α}
    : (arena.remove handle).2.get other = .ok value
      ↔ other ≠ handle ∧ arena.get other = .ok value := by
  unfold remove
  split
  · rename_i miss missed
    constructor
    · intro found
      exact ⟨fun equal => by simp [← equal, found] at missed, found⟩
    · exact fun found => found.2
  · rename_i held found
    obtain ⟨minted, filled⟩ := get_eq_ok.mp found
    simp only [get_eq_ok, Array.getElem?_modify]
    by_cases same : handle.index = other.index
    · rw [if_pos same, ← same, filled]
      obtain ⟨heap, index, generation⟩ := other
      obtain ⟨heap', index', generation'⟩ := handle
      subst same
      simp only [Option.map_some, Option.some.injEq, Slot.mk.injEq, Handle.mk.injEq, ne_eq] at *
      grind
    · have distinct : other ≠ handle := fun equal => same (equal ▸ rfl)
      simp [same, distinct]

@[simp]
theorem size_insert (arena : Arena α) (value : α)
    : (arena.insert value).2.size = arena.size + 1 := by
  unfold insert
  split <;> rfl

theorem size_remove_of_get {arena : Arena α} {handle : Handle} {value : α}
    (found : arena.get handle = .ok value)
    : (arena.remove handle).2.size = arena.size - 1 := by
  unfold remove
  split
  · rename_i miss missed
    simp [found] at missed
  · rfl

/-- An arena that holds a value is not empty. -/
theorem size_pos_of_get {arena : Arena α} {handle : Handle} {value : α}
    (found : arena.get handle = .ok value)
    : 0 < arena.size := by
  have cleared := (arena.accounted.clear (get_eq_ok.mp found).2).total
  have total := arena.accounted.total
  simp only [List.length_cons, Array.size_modify] at cleared
  omega

/-- A removal returns the value that was there. -/
theorem remove_of_get {arena : Arena α} {handle : Handle} {value : α}
    (found : arena.get handle = .ok value)
    : (arena.remove handle).1 = some value := by
  unfold remove
  split
  · rename_i miss missed
    simp [found] at missed
  · rename_i held other
    simpa [found] using other.symm

theorem get_map (arena : Arena α) (change : α → α) (handle : Handle)
    : (arena.map change).get handle = (arena.get handle).map change := by
  unfold get locate
  simp only [map, Array.getD_eq_getD_getElem?, Array.getElem?_map]
  by_cases foreign : handle.heap = arena.heap
  · rcases h : arena.slots[handle.index]? with _ | ⟨generation, content⟩
    · simp [foreign, bind, Except.bind, Except.map]
    · by_cases current : generation = handle.generation
      · rcases content with _ | content <;>
          simp [foreign, current, h, bind, Except.bind, Except.map]
      · simp [foreign, current, bind, Except.bind, Except.map]
  · simp [foreign, bind, Except.bind, Except.map]

/-- The list of an arena holds exactly what its handles name. -/
theorem mem_toList {arena : Arena α} {handle : Handle} {value : α}
    : (handle, value) ∈ arena.toList ↔ arena.get handle = .ok value := by
  obtain ⟨heap, index, generation⟩ := handle
  simp only [toList, List.mem_filterMap, List.mem_range, Option.map_eq_some_iff, Prod.mk.injEq,
    handleAt, Handle.mk.injEq, get_eq_ok]
  constructor
  · rintro ⟨i, bound, held, content, ⟨rfl, rfl, rfl⟩, rfl⟩
    have slot : arena.slots[i]? = some (arena.slots.getD i {}) := by simp [bound]
    refine ⟨rfl, ?_⟩
    rw [slot, ← content]
  · rintro ⟨rfl, filled⟩
    have bound := (Array.getElem?_eq_some_iff.mp filled).1
    have slot : arena.slots.getD index {} = ⟨generation, some value⟩ := by
      simp [Array.getD_eq_getD_getElem?, filled]
    exact ⟨index, bound, value, by rw [slot], ⟨rfl, rfl, by rw [slot]⟩, rfl⟩

theorem toList_map (arena : Arena α) (change : α → α)
    : (arena.map change).toList = arena.toList.map fun entry => (entry.1, change entry.2) := by
  simp only [toList, map, handleAt, Array.size_map, List.map_filterMap]
  refine congrFun (congrArg List.filterMap (funext fun index => ?_)) _
  simp only [Array.getD_eq_getD_getElem?, Array.getElem?_map]
  cases arena.slots[index]? <;> simp [Function.comp_def]

theorem mem_handles {arena : Arena α} {handle : Handle}
    : handle ∈ arena.handles ↔ arena.contains handle = true := by
  rw [contains_iff]
  constructor
  · intro member
    obtain ⟨⟨_, value⟩, listed, rfl⟩ := List.mem_map.mp member
    exact ⟨value, mem_toList.mp listed⟩
  · rintro ⟨value, found⟩
    exact List.mem_map.mpr ⟨(handle, value), mem_toList.mpr found, rfl⟩

/-- Changing a value in its place leaves all handles. -/
@[simp]
theorem handles_modify (arena : Arena α) (handle : Handle) (change : α → α)
    : (arena.modify handle change).handles = arena.handles := by
  unfold modify
  split
  · simp only [handles, toList, handleAt, Array.size_modify, List.map_filterMap]
    refine congrFun (congrArg List.filterMap (funext fun index => ?_)) _
    simp only [Array.getD_eq_getD_getElem?, Array.getElem?_modify]
    cases arena.slots[index]? <;> split <;> simp [Function.comp_def]
  · rfl

@[simp]
theorem handles_map (arena : Arena α) (change : α → α)
    : (arena.map change).handles = arena.handles := by
  simp [handles, toList_map, Function.comp_def]

/-- Removals one after the other take all their handles away and no other. -/
theorem get_foldl_remove {arena : Arena α} {entries : List (Handle × α)} {handle : Handle}
    {value : α}
    : (entries.foldl (fun arena (handle, _) => (arena.remove handle).2) arena).get handle
        = .ok value
      ↔ arena.get handle = .ok value ∧ ∀ entry ∈ entries, entry.1 ≠ handle := by
  induction entries generalizing arena with
  | nil => simp
  | cons entry rest ih =>
      rw [List.foldl_cons, ih, get_remove]
      constructor
      · rintro ⟨⟨distinct, found⟩, others⟩
        refine ⟨found, ?_⟩
        intro other member
        rcases List.mem_cons.mp member with same | member
        · exact same ▸ distinct.symm
        · exact others other member
      · rintro ⟨found, distinct⟩
        exact ⟨⟨(distinct entry List.mem_cons_self).symm, found⟩,
          fun other member => distinct other (List.mem_cons_of_mem _ member)⟩

/-- What is retained are the values that pass the test. -/
theorem get_retain {arena : Arena α} {keep : Handle → α → Bool} {handle : Handle} {value : α}
    : (arena.retain keep).2.get handle = .ok value
      ↔ arena.get handle = .ok value ∧ keep handle value = true := by
  unfold retain
  rw [get_foldl_remove]
  refine and_congr_right fun found => ?_
  constructor
  · intro kept
    by_cases passes : keep handle value = true
    · exact passes
    · refine absurd rfl (kept (handle, value) ?_)
      exact List.mem_filter.mpr ⟨mem_toList.mpr found, by simpa using passes⟩
  · rintro passes ⟨other, dropped⟩ member rfl
    obtain ⟨held, fails⟩ := List.mem_filter.mp member
    have same := (mem_toList.mp held).symm.trans found
    simp only [Except.ok.injEq] at same
    simp [same, passes] at fails

@[simp]
theorem heap_retain (arena : Arena α) (keep : Handle → α → Bool)
    : (arena.retain keep).2.heap = arena.heap := by
  have folded (entries : List (Handle × α)) (start : Arena α)
      : (entries.foldl (fun arena (handle, _) => (arena.remove handle).2) start).heap
        = start.heap := by
    induction entries generalizing start with
    | nil => rfl
    | cons entry rest ih => rw [List.foldl_cons, ih, heap_remove]
  exact folded _ _

/-- What a sweep drops are the handles whose values fail its test. -/
theorem retain_fst (arena : Arena α) (test : α → Bool)
    : (arena.retain fun _ value => test value).1
      = arena.handles.countP fun handle => !arena.holds handle test := by
  rw [handles, List.countP_map]
  refine List.countP_eq_length_filter.symm.trans (List.countP_congr fun entry member => ?_)
  have found := mem_toList.mp member
  simp [holds, found]

/-- Two arenas are equal if their slots and vacancies are. -/
@[ext]
theorem ext {left right : Arena α} (heap : left.heap = right.heap)
    (slots : left.slots = right.slots) (vacant : left.vacant = right.vacant)
    (size : left.size = right.size)
    : left = right := by
  cases left
  cases right
  simp_all

theorem contains_modify (arena : Arena α) (handle other : Handle) (change : α → α)
    : (arena.modify handle change).contains other = arena.contains other := by
  apply Bool.eq_iff_iff.mpr
  simp only [contains_iff, get_modify]
  constructor
  · rintro ⟨_, before, found, _⟩
    exact ⟨before, found⟩
  · rintro ⟨before, found⟩
    exact ⟨_, before, found, rfl⟩

/-- Two changes of one value are one change. -/
theorem modify_modify (arena : Arena α) (handle : Handle) (first second : α → α)
    : (arena.modify handle first).modify handle second
      = arena.modify handle (second ∘ first) := by
  by_cases live : arena.contains handle
  · have still : (arena.modify handle first).contains handle := by
      rwa [contains_modify]
    rw [modify, if_pos still]
    ext1
    · simp
    · simp only [modify, if_pos live]
      apply Array.ext_getElem?
      intro index
      simp only [Array.getElem?_modify]
      split <;> simp [Option.map_map, Function.comp_def]
    · simp [modify, live]
    · simp [modify, live]
  · simp [modify, live]

/-- Changes that agree on a value are one change of it. -/
theorem modify_congr {arena : Arena α} {handle : Handle} {value : α} {first second : α → α}
    (found : arena.get handle = .ok value) (same : first value = second value)
    : arena.modify handle first = arena.modify handle second := by
  obtain ⟨_, held⟩ := get_eq_ok.mp found
  unfold modify
  split
  · ext1
    · rfl
    · apply Array.ext_getElem?
      intro index
      simp only [Array.getElem?_modify]
      split
      · subst_vars
        simp [held, same]
      · rfl
    · rfl
    · rfl
  · rfl

/-- A change that leaves its value leaves the arena. -/
theorem modify_eq_self {arena : Arena α} {handle : Handle} {value : α} {change : α → α}
    (found : arena.get handle = .ok value) (unchanged : change value = value)
    : arena.modify handle change = arena := by
  have same : arena.modify handle change = arena.modify handle id := modify_congr found unchanged
  rw [same]
  unfold modify
  split
  · ext1
    · rfl
    · apply Array.ext_getElem?
      intro index
      simp only [Array.getElem?_modify]
      split <;> simp
    · rfl
    · rfl
  · rfl

/-- A change that leaves every value leaves the arena. -/
theorem map_eq_self {arena : Arena α} {change : α → α}
    (unchanged : ∀ handle value, arena.get handle = .ok value → change value = value)
    : arena.map change = arena := by
  ext1
  · rfl
  · apply Array.ext_getElem?
    intro index
    simp only [map, Array.getElem?_map]
    rcases held : arena.slots[index]? with _ | ⟨generation, _ | content⟩
    · rfl
    · rfl
    · have found : arena.get ⟨arena.heap, index, generation⟩ = .ok content :=
        get_eq_ok.mpr ⟨rfl, held⟩
      simp [unchanged _ content found]
  · rfl
  · rfl

/-- A change that another one wipes out leaves no trace behind it. -/
theorem map_modify {arena : Arena α} {handle : Handle} {change wipe : α → α}
    (wiped : ∀ value, wipe (change value) = wipe value)
    : (arena.modify handle change).map wipe = arena.map wipe := by
  unfold modify
  split
  · ext1
    · rfl
    · apply Array.ext_getElem?
      intro index
      simp only [map, Array.getElem?_map, Array.getElem?_modify]
      split <;> simp [Option.map_map, Function.comp_def, wiped]
    · rfl
    · rfl
  · rfl

/-- Sweeping an arena of marked values and wiping the marks off leaves, of what was there
before they were put on, the values with a mark.
-/
theorem get_map_retain {marked plain : Arena α} {wipe : α → α} {test : α → Bool}
    (wiped : marked.map wipe = plain) {handle : Handle} {value : α}
    : ((marked.retain fun _ value => test value).2.map wipe).get handle = .ok value
      ↔ plain.get handle = .ok value ∧ marked.holds handle test = true := by
  subst wiped
  simp only [get_map, holds, Except.map]
  rcases kept : (marked.retain fun _ value => test value).2.get handle with miss | held
  · rcases found : marked.get handle with _ | held
    · simp
    · have dropped : ¬test held = true := by
        intro passes
        have survives : (marked.retain fun _ value => test value).2.get handle = .ok held :=
          get_retain.mpr ⟨found, passes⟩
        simp [survives] at kept
      simp [dropped]
  · obtain ⟨found, passes⟩ := get_retain.mp kept
    simp [found, passes]

end HookMachine.Arena
