import HookMachine.Arena.View
import Mathlib.Data.List.Count
import Mathlib.Data.List.Nodup
import Mathlib.Data.List.Range

/-!
An arena over time is a finite map from handles to values. Every insertion returns a handle that
was never returned before, a handle names its value until that is removed and nothing ever
after, and the arena tells foreign handles from stale ones.
-/

namespace HookMachine

/-- Where the same slots are empty, the account is the same. -/
theorem Slot.Accounted.congr {α : Type} {slots changed : Array (Slot α)} {vacant : List Nat}
    {size : Nat} (accounted : Slot.Accounted slots vacant size)
    (same : ∀ index : Nat, changed[index]?.map Slot.content = some none
      ↔ slots[index]?.map Slot.content = some none)
    (total : changed.size = slots.size)
    : Slot.Accounted changed vacant size :=
  ⟨accounted.nodup, fun index => (accounted.mem_iff index).trans (same index).symm,
    accounted.total.trans total.symm⟩

namespace Arena

variable {α : Type} {heap : Nat} {arena : Arena α} {handle other : Handle} {value : α}

-----------------------------------------------------------------------------------------
-- Changing every value by its handle
-----------------------------------------------------------------------------------------

/-- Visits every value with its handle and replaces it by its image under `change`. -/
def visit (arena : Arena α) (change : Handle → α → α) : Arena α :=
  { arena with
    slots := arena.slots.mapIdx fun index slot =>
      { slot with content := slot.content.map (change (arena.handleAt index)) }
    accounted := by
      refine arena.accounted.congr (fun index => ?_) Array.size_mapIdx
      rw [Array.getElem?_mapIdx]
      cases arena.slots[index]? <;> simp }

/-- A visit changes what each handle names by that handle. -/
theorem get_visit {change : Handle → α → α}
    : (arena.visit change).get handle = .ok value
      ↔ ∃ before, arena.get handle = .ok before ∧ value = change handle before := by
  obtain ⟨minted, index, generation⟩ := handle
  simp only [get_eq_ok, visit, Array.getElem?_mapIdx]
  constructor
  · rintro ⟨rfl, held⟩
    obtain ⟨slot, filled, changed⟩ := Option.map_eq_some_iff.mp held
    obtain ⟨rfl, content⟩ := Slot.mk.inj changed
    obtain ⟨before, kept, rfl⟩ := Option.map_eq_some_iff.mp content
    have current : arena.handleAt index = ⟨arena.heap, index, slot.generation⟩ := by
      simp [handleAt, Array.getD_eq_getD_getElem?, filled]
    exact ⟨before, ⟨rfl, by rw [filled, ← kept]⟩, by rw [current]⟩
  · rintro ⟨before, ⟨rfl, filled⟩, rfl⟩
    have current : arena.handleAt index = ⟨arena.heap, index, generation⟩ := by
      simp [handleAt, Array.getD_eq_getD_getElem?, filled]
    exact ⟨rfl, by simp [filled, current]⟩

-----------------------------------------------------------------------------------------
-- How a handle may miss
-----------------------------------------------------------------------------------------

theorem get_eq_foreign : arena.get handle = .error .foreign ↔ handle.heap ≠ arena.heap := by
  unfold get locate
  by_cases foreign : handle.heap = arena.heap
  · rcases arena.slots[handle.index]? with _ | slot
    · simp [foreign, bind, Except.bind]
    · by_cases current : slot.generation = handle.generation
      · simp only [foreign, ne_eq, not_true_eq_false, if_false, current, if_true, bind, Except.bind,
          iff_false]
        split <;> simp
      · simp [foreign, current, bind, Except.bind]
  · simp [foreign, bind, Except.bind]

/-- What a handle names is told by the heap that minted it and by the values of the arena. -/
theorem get_eq_of_iff {content : Option α}
    (named : ∀ value, arena.get handle = .ok value ↔ content = some value)
    : arena.get handle
      = if handle.heap = arena.heap then content.elim (.error .stale) .ok else .error .foreign := by
  split
  · rename_i own
    cases content with
    | some value => exact (named value).mpr rfl
    | none =>
        rcases found : arena.get handle with miss | value
        · cases miss with
          | stale => rfl
          | foreign => exact absurd own (get_eq_foreign.mp found)
        · exact absurd ((named value).mp found) (by simp)
  · rename_i foreign
    exact get_eq_foreign.mpr foreign

/-- The removal of what is not there changes nothing. -/
theorem remove_of_miss {miss : Miss} (missed : arena.get handle = .error miss)
    : arena.remove handle = (none, arena) := by
  unfold remove
  split
  · rfl
  · rename_i found
    simp [found] at missed

-----------------------------------------------------------------------------------------
-- Slots that are filled and slots that are vacant
-----------------------------------------------------------------------------------------

/-- The values of an arena are those of its filled slots. -/
theorem indices_handles (arena : Arena α)
    : arena.handles.map Handle.index
      = (List.range arena.slots.size).filter fun index =>
          (arena.slots.getD index {}).content.isSome := by
  rw [handles, toList, List.map_map, List.map_filterMap, ← List.filterMap_eq_filter]
  refine congrFun (congrArg List.filterMap (funext fun index => ?_)) _
  cases content : (arena.slots.getD index {}).content <;>
    simp [handleAt, Option.guard, content, -Array.getD_eq_getD_getElem?]

/-- No value is listed twice. -/
theorem nodup_handles (arena : Arena α) : arena.handles.Nodup := by
  refine .of_map Handle.index ?_
  rw [indices_handles]
  exact List.nodup_range.filter _

/-- The vacant slots are the empty ones, in some order. -/
theorem vacant_perm (arena : Arena α)
    : arena.vacant.Perm
        ((List.range arena.slots.size).filter fun index =>
          !(arena.slots.getD index {}).content.isSome) := by
  refine (List.perm_ext_iff_of_nodup arena.accounted.nodup (List.nodup_range.filter _)).mpr ?_
  intro index
  rw [arena.accounted.mem_iff, List.mem_filter, List.mem_range]
  by_cases bound : index < arena.slots.size
  · simp [bound, Array.getD_eq_getD_getElem?]
  · simp [bound]

/-- The size of an arena is the number of its values. -/
theorem length_toList (arena : Arena α) : arena.toList.length = arena.size := by
  have filled : arena.toList.length = (arena.handles.map Handle.index).length := by
    simp [handles]
  have split := List.length_eq_length_filter_add (l := List.range arena.slots.size)
    fun index => (arena.slots.getD index {}).content.isSome
  rw [← indices_handles, ← arena.vacant_perm.length_eq, List.length_range, ← filled] at split
  have total := arena.accounted.total
  omega

-----------------------------------------------------------------------------------------
-- What was done to an arena
-----------------------------------------------------------------------------------------

/-- What was done to an arena. -/
inductive Event (α : Type) where
  /-- A value was inserted, and `handle` was returned for it. -/
  | inserted (handle : Handle) (value : α)
  | removed (handle : Handle)
  /-- The value that `handle` named was changed in its place. -/
  | modified (handle : Handle) (change : α → α)
  /-- All values were changed in their places. -/
  | visited (change : Handle → α → α)
  /-- The values that `keep` rejects were dropped. -/
  | retained (keep : Handle → α → Bool)

/-- The arenas of a heap that any operations lead to, by any handles, with what was done, the last
first. Looking up a handle changes nothing.
-/
inductive History (heap : Nat) : List (Event α) → Arena α → Prop
  | empty : History heap [] (empty heap)
  | insert {events arena} (value : α) (history : History heap events arena)
    : History heap (.inserted (arena.insert value).1 value :: events) (arena.insert value).2
  | remove {events arena} (handle : Handle) (history : History heap events arena)
    : History heap (.removed handle :: events) (arena.remove handle).2
  | modify {events arena} (handle : Handle) (change : α → α)
    (history : History heap events arena)
    : History heap (.modified handle change :: events) (arena.modify handle change)
  | visit {events arena} (change : Handle → α → α) (history : History heap events arena)
    : History heap (.visited change :: events) (arena.visit change)
  | retain {events arena} (keep : Handle → α → Bool) (history : History heap events arena)
    : History heap (.retained keep :: events) (arena.retain keep).2

namespace Event

/-- The handle that was returned. -/
def issued? : Event α → Option Handle
  | inserted handle _ => some handle
  | _ => none

/-- The value that a handle names after what was done, read off that alone. -/
def recalled (handle : Handle) : List (Event α) → Option α
  | [] => none
  | .inserted other value :: earlier =>
      if handle = other then some value else recalled handle earlier
  | .removed other :: earlier => if handle = other then none else recalled handle earlier
  | .modified other change :: earlier =>
      if handle = other then (recalled handle earlier).map change else recalled handle earlier
  | .visited change :: earlier => (recalled handle earlier).map (change handle)
  | .retained keep :: earlier => (recalled handle earlier).filter (keep handle)

/-- The handles that were returned, the last first. -/
def issued (events : List (Event α)) : List Handle :=
  events.filterMap issued?

/-- How often a slot was filled. -/
def fillings (index : Nat) (events : List (Event α)) : Nat :=
  (issued events).countP fun handle => handle.index = index

end Event

open Event

/-- The arena of a heap is the finite map that is read off from what was done. -/
structure Represents (heap : Nat) (events : List (Event α)) (arena : Arena α) : Prop where
  /-- No handle was returned twice. -/
  fresh : (issued events).Nodup
  /-- A handle of the heap names what is recalled, and is stale if that is nothing. -/
  get (handle : Handle)
    : arena.get handle
      = if handle.heap = heap then (recalled handle events).elim (.error .stale) .ok
        else .error .foreign
  /-- A handle that was returned and names nothing any more never names anything again. -/
  gone {later earlier : List (Event α)} {handle : Handle}
    : events = later ++ earlier → handle ∈ issued earlier → recalled handle earlier = none
      → recalled handle events = none
  remove_found {handle : Handle} {value : α}
    : arena.get handle = .ok value → (arena.remove handle).1 = some value
  remove_missed {handle : Handle} {miss : Miss}
    : arena.get handle = .error miss → arena.remove handle = (none, arena)
  /-- The values that are visited are those that handles name, each once. -/
  visits {handle : Handle} {value : α} : (handle, value) ∈ arena.toList ↔ arena.get handle = .ok value
  once : arena.handles.Nodup
  size : arena.size = arena.toList.length
  /-- The vacant slots are the empty ones, each once. -/
  vacant (index : Nat) : index ∈ arena.vacant ↔ arena.slots[index]?.map Slot.content = some none
  vacant_once : arena.vacant.Nodup

/-- No slot was filled so often that its generation wrapped. -/
def Unwrapped (events : List (Event α)) : Prop :=
  ∀ index, fillings index events ≤ UInt32.size

variable {events earlier later : List (Event α)} {event : Event α} {index : Nat}

-----------------------------------------------------------------------------------------
-- What handles name
-----------------------------------------------------------------------------------------

theorem History.heap_eq (history : History heap events arena) : arena.heap = heap := by
  induction history with
  | empty => rfl
  | insert value _ ih => rw [heap_insert, ih]
  | remove handle _ ih => rw [heap_remove, ih]
  | modify handle change _ ih => rw [heap_modify, ih]
  | visit change _ ih => exact ih
  | retain keep _ ih => rw [heap_retain, ih]

/-- Handles name what is recalled of them, by induction over what was done. -/
theorem History.get_eq_ok_iff (history : History heap events arena) (handle : Handle) (value : α)
    : arena.get handle = .ok value ↔ recalled handle events = some value := by
  induction history generalizing value with
  | empty => simp [recalled]
  | @insert events arena inserted _ ih =>
      rw [get_insert, recalled]
      by_cases same : handle = (arena.insert inserted).1
      · subst same
        have absent := get_insert_fresh arena inserted value
        simp [absent, eq_comm]
      · simp [same, ih]
  | remove removed _ ih =>
      rw [get_remove, recalled]
      by_cases same : handle = removed <;> simp [same, ← ih]
  | modify modified change _ ih =>
      rw [get_modify, recalled]
      by_cases same : handle = modified
      · subst same
        simp only [if_true, Option.map_eq_some_iff, ← ih]
        exact exists_congr fun _ => and_congr_right fun _ => eq_comm
      · simp [same, ← ih]
  | visit change _ ih =>
      rw [get_visit, recalled, Option.map_eq_some_iff]
      simp [← ih, eq_comm]
  | retain keep _ ih =>
      rw [get_retain, recalled, Option.filter_eq_some_iff, ih]

-----------------------------------------------------------------------------------------
-- No handle is returned twice
-----------------------------------------------------------------------------------------

/-- How often each slot was filled before its current or last filling. -/
def generations (arena : Arena α) : Array UInt32 :=
  arena.slots.map Slot.generation

@[simp]
theorem generations_remove (arena : Arena α) (handle : Handle)
    : (arena.remove handle).2.generations = arena.generations := by
  unfold remove
  split
  · rfl
  · apply Array.ext_getElem?
    intro index
    simp only [generations, Array.getElem?_map, Array.getElem?_modify]
    split <;> simp [Function.comp_def]

@[simp]
theorem generations_modify (arena : Arena α) (handle : Handle) (change : α → α)
    : (arena.modify handle change).generations = arena.generations := by
  unfold modify
  split
  · apply Array.ext_getElem?
    intro index
    simp only [generations, Array.getElem?_map, Array.getElem?_modify]
    split <;> simp [Function.comp_def]
  · rfl

@[simp]
theorem generations_visit (arena : Arena α) (change : Handle → α → α)
    : (arena.visit change).generations = arena.generations := by
  apply Array.ext_getElem?
  intro index
  simp [generations, visit, Function.comp_def]

@[simp]
theorem generations_retain (arena : Arena α) (keep : Handle → α → Bool)
    : (arena.retain keep).2.generations = arena.generations := by
  have folded (entries : List (Handle × α)) (start : Arena α)
      : (entries.foldl (fun arena entry => (arena.remove entry.1).2) start).generations
        = start.generations := by
    induction entries generalizing start with
    | nil => rfl
    | cons entry rest ih => rw [List.foldl_cons, ih, generations_remove]
  exact folded _ _

/-- An insertion fills a vacant slot once more, or a new slot for the first time. -/
theorem insert_cases (arena : Arena α) (value : α)
    : (∃ index generation, arena.generations[index]? = some generation
          ∧ (arena.insert value).1 = ⟨arena.heap, index, generation + 1⟩
          ∧ (arena.insert value).2.generations = arena.generations.set! index (generation + 1))
      ∨ ((arena.insert value).1 = ⟨arena.heap, arena.generations.size, 0⟩
          ∧ (arena.insert value).2.generations = arena.generations.push 0) := by
  unfold insert
  split
  · rename_i index vacant vacancy
    have bound := arena.accounted.lt_size (vacancy ▸ List.mem_cons_self)
    refine .inl ⟨index, arena.slots[index].generation, ?_, ?_, ?_⟩
    · simp [generations, bound]
    · simp [bound]
    · simp [generations, bound]
  · exact .inr ⟨by simp [generations], by simp [generations]⟩

/-- Slots count how often they were filled, and every handle that was returned has a number of its
own among those of its slot.
-/
structure Numbered (arena : Arena α) (events : List (Event α)) : Prop where
  slots {index : Nat} {generation : UInt32}
    : arena.generations[index]? = some generation
      → generation + 1 = UInt32.ofNat (fillings index events)
  /-- The last filling of a slot is the one with the highest number. -/
  issued {handle : Handle}
    : handle ∈ issued events
      → handle.index < arena.generations.size
        ∧ ∃ number < fillings handle.index events, handle.generation = UInt32.ofNat number

/-- Operations other than insertions number nothing. -/
theorem Numbered.keep {after : Arena α} (numbered : arena.Numbered events)
    (quiet : event.issued? = none) (same : after.generations = arena.generations)
    : after.Numbered (event :: events) := by
  have issued_same : Event.issued (event :: events) = Event.issued events := by
    simp [Event.issued, quiet]
  have fillings_same (index : Nat) : fillings index (event :: events) = fillings index events := by
    rw [fillings, fillings, issued_same]
  refine ⟨fun found => ?_, fun member => ?_⟩
  · rw [fillings_same]
    exact numbered.slots (same ▸ found)
  · rw [issued_same] at member
    rw [same, fillings_same]
    exact numbered.issued member

theorem fillings_inserted (index : Nat) (handle : Handle) (value : α) (events : List (Event α))
    : fillings index (.inserted handle value :: events)
      = fillings index events + if handle.index = index then 1 else 0 := by
  simp [fillings, Event.issued, issued?, List.countP_cons]

/-- A slot that does not exist was never filled. -/
theorem Numbered.fillings_size (numbered : arena.Numbered events)
    : fillings arena.generations.size events = 0 := by
  refine List.countP_eq_zero.mpr fun handle member => ?_
  have bound := (numbered.issued member).1
  simp only [decide_eq_true_eq]
  omega

/-- Filling a slot numbers its handle next. -/
theorem Numbered.fill {after : Arena α} (numbered : arena.Numbered events)
    (number : handle.generation = UInt32.ofNat (fillings handle.index events))
    (filled : after.generations[handle.index]? = some handle.generation)
    (others : ∀ index, index ≠ handle.index
      → after.generations[index]? = arena.generations[index]?)
    : after.Numbered (.inserted handle value :: events) := by
  constructor
  · intro index generation held
    rw [fillings_inserted]
    by_cases same : handle.index = index
    · subst same
      obtain rfl := Option.some.inj (held.symm.trans filled)
      rw [number, if_pos rfl, UInt32.ofNat_add]
      rfl
    · rw [if_neg same, Nat.add_zero]
      exact numbered.slots ((others index (Ne.symm same)).symm.trans held)
  · intro other member
    rw [fillings_inserted]
    rcases List.mem_cons.mp member with rfl | member
    · refine ⟨(Array.getElem?_eq_some_iff.mp filled).1, _, ?_, number⟩
      simp
    · obtain ⟨bound, old, within, known⟩ := numbered.issued member
      refine ⟨?_, old, Nat.lt_add_right _ within, known⟩
      by_cases same : other.index = handle.index
      · exact same ▸ (Array.getElem?_eq_some_iff.mp filled).1
      · have held := others other.index same
        rw [Array.getElem?_eq_getElem bound] at held
        exact (Array.getElem?_eq_some_iff.mp held).1

/-- The number of a new handle is that of the earlier fillings of its slot. -/
theorem Numbered.generation_insert (numbered : arena.Numbered events) (value : α)
    : (arena.insert value).1.generation
      = UInt32.ofNat (fillings (arena.insert value).1.index events) := by
  rcases arena.insert_cases value with ⟨index, generation, found, returned, _⟩ | ⟨returned, _⟩
  · rw [returned]
    exact numbered.slots found
  · rw [returned, numbered.fillings_size]
    rfl

/-- An insertion numbers its handle next, whether it fills a slot again or a new one. -/
theorem Numbered.insert (numbered : arena.Numbered events) (value : α)
    : (arena.insert value).2.Numbered (.inserted (arena.insert value).1 value :: events) := by
  refine numbered.fill (numbered.generation_insert value) ?_ fun other distinct => ?_
  · rcases arena.insert_cases value with
      ⟨index, generation, found, returned, generations⟩ | ⟨returned, generations⟩
    · have bound := (Array.getElem?_eq_some_iff.mp found).1
      rw [returned, generations, Array.set!_eq_setIfInBounds, Array.getElem?_setIfInBounds_self_of_lt bound]
    · rw [returned, generations, Array.getElem?_push_size]
  · rcases arena.insert_cases value with
      ⟨index, generation, found, returned, generations⟩ | ⟨returned, generations⟩
    · rw [returned] at distinct
      rw [generations, Array.set!_eq_setIfInBounds,
        Array.getElem?_setIfInBounds_ne (Ne.symm distinct)]
    · rw [returned] at distinct
      rw [generations, Array.getElem?_push, if_neg distinct]

theorem History.numbered (history : History heap events arena) : arena.Numbered events := by
  induction history with
  | empty => exact ⟨by simp [generations, Arena.empty], by simp [Event.issued]⟩
  | insert value _ ih => exact ih.insert value
  | remove handle _ ih => exact ih.keep rfl (generations_remove _ handle)
  | modify handle change _ ih => exact ih.keep rfl (generations_modify _ handle change)
  | visit change _ ih => exact ih.keep rfl (generations_visit _ change)
  | retain keep _ ih => exact ih.keep rfl (generations_retain _ keep)

theorem issued_append : issued (later ++ earlier) = issued later ++ issued earlier :=
  List.filterMap_append

/-- With few insertions no generation wraps. -/
theorem Unwrapped.of_length (few : events.length ≤ UInt32.size) : Unwrapped events :=
  fun _ => List.countP_le_length.trans ((List.length_filterMap_le ..).trans few)

/-- What was done before wrapped no slot if nothing did. -/
theorem Unwrapped.tail (unwrapped : Unwrapped (event :: events)) : Unwrapped events := by
  intro index
  refine Nat.le_trans (List.Sublist.countP_le ?_) (unwrapped index)
  exact List.Sublist.filterMap _ (List.sublist_cons_self ..)

/-- The handle of an insertion was not returned before, unless its slot was filled so often that
generations wrapped.
-/
theorem History.insert_notMem_issued (history : History heap events arena)
    (unwrapped : Unwrapped (.inserted (arena.insert value).1 value :: events))
    : (arena.insert value).1 ∉ issued events := by
  intro member
  obtain ⟨_, old, within, known⟩ := history.numbered.issued member
  have filled := unwrapped (arena.insert value).1.index
  rw [fillings_inserted, if_pos rfl] at filled
  rw [history.numbered.generation_insert] at known
  have same := congrArg UInt32.toNat known
  rw [UInt32.toNat_ofNat_of_lt' (by omega), UInt32.toNat_ofNat_of_lt' (by omega)] at same
  omega

/-- No handle is returned twice, by induction over what was done. -/
theorem History.nodup_issued (history : History heap events arena)
    (unwrapped : Unwrapped events)
    : (issued events).Nodup := by
  induction history with
  | empty => exact .nil
  | insert value history ih =>
      refine List.nodup_cons.mpr ⟨history.insert_notMem_issued unwrapped, ?_⟩
      exact ih unwrapped.tail
  | remove _ _ ih | modify _ _ _ ih | visit _ _ ih | retain _ _ ih =>
      exact ih unwrapped.tail

-----------------------------------------------------------------------------------------
-- Arenas are finite maps
-----------------------------------------------------------------------------------------

/-- What is not recalled any more is not recalled later, unless its handle is returned again; by
induction over what was done since.
-/
theorem recalled_append (fresh : (issued (later ++ earlier)).Nodup)
    (returned : handle ∈ issued earlier) (forgotten : recalled handle earlier = none)
    : recalled handle (later ++ earlier) = none := by
  induction later with
  | nil => exact forgotten
  | cons event later ih =>
      cases event with
      | inserted other value =>
          obtain ⟨absent, fresh⟩ := List.nodup_cons.mp fresh
          have distinct : handle ≠ other := by
            rintro rfl
            have kept : handle ∈ issued (later ++ earlier) :=
              issued_append ▸ List.mem_append_right _ returned
            exact absent kept
          rw [List.cons_append, recalled, if_neg distinct]
          exact ih fresh
      | removed other => simp [recalled, ih fresh]
      | modified other change => simp [recalled, ih fresh]
      | visited change => simp [recalled, ih fresh]
      | retained keep => simp [recalled, ih fresh]

/-- Whatever was done to an arena, by whatever handles: it is the finite map that its insertions,
changes and removals make, as long as no slot is filled again so often that its generations
wrap.
-/
theorem represents_of_history (history : History heap events arena)
    (unwrapped : Unwrapped events)
    : Represents heap events arena where
  fresh := history.nodup_issued unwrapped
  get handle := history.heap_eq ▸ get_eq_of_iff (history.get_eq_ok_iff handle)
  gone {later earlier handle} split returned forgotten := by
    subst split
    exact recalled_append (history.nodup_issued unwrapped) returned forgotten
  remove_found := remove_of_get
  remove_missed := remove_of_miss
  visits := mem_toList
  once := arena.nodup_handles
  size := arena.length_toList.symm
  vacant := arena.accounted.mem_iff
  vacant_once := arena.accounted.nodup

/-- Of two values the first is removed, its slot is filled again, and all but that are dropped;
the first handle names nothing from then on.
-/
theorem represents_of_history_reused
    : ∃ (events : List (Event String)) (arena : Arena String),
        History 7 events arena
          ∧ Unwrapped events
          ∧ Represents 7 events arena
          ∧ issued events = [⟨7, 0, 1⟩, ⟨7, 1, 0⟩, ⟨7, 0, 0⟩]
          ∧ arena.get ⟨7, 0, 1⟩ = .ok "third"
          ∧ arena.get ⟨7, 0, 0⟩ = .error .stale := by
  have started : History 7 [] (empty 7 : Arena String) := .empty
  have history :=
    (((((started.insert "first").insert "second").remove ⟨7, 0, 0⟩).insert "third").retain
      fun _ value => value == "third")
  refine ⟨_, _, history, .of_length ?_, represents_of_history history (.of_length ?_), ?_, ?_, ?_⟩
  all_goals decide

end Arena
end HookMachine
