/-!
Generational arenas. Every slot counts how often it was filled, and a handle names one
filling of one slot of one arena, so a handle to an earlier filling, or one minted
elsewhere, is told apart from a current one. Arenas carry the proof that their vacant
slots are accounted for, so what an operation does can be said by `get` alone.
-/

namespace HookMachine

/-- Address of one filling of one arena slot. -/
structure Handle where
  /-- The heap whose arena minted the handle. -/
  heap : Nat
  index : Nat
  /-- How often the slot had been filled before; it wraps after `2 ^ 32` fillings. -/
  generation : UInt32
deriving DecidableEq, Inhabited, Repr

/-- Why a handle names no value. -/
inductive Miss where
  /-- The slot is empty, was refilled, or never existed. -/
  | stale
  /-- The handle was minted for another heap. -/
  | foreign
deriving DecidableEq, Repr

/-- One slot: how often it was filled before, and what it holds now. -/
structure Slot (α : Type) where
  generation : UInt32 := 0
  content : Option α := none

/-- The vacant indices are those of the empty slots, each once, and `size` counts the others.
-/
structure Slot.Accounted {α : Type} (slots : Array (Slot α)) (vacant : List Nat) (size : Nat)
    : Prop where
  nodup : vacant.Nodup
  mem_iff : ∀ index, index ∈ vacant ↔ slots[index]?.map Slot.content = some none
  total : size + vacant.length = slots.size

namespace Slot.Accounted

variable {α : Type} {slots : Array (Slot α)} {vacant : List Nat} {size index : Nat}

theorem empty : Accounted (#[] : Array (Slot α)) [] 0 :=
  ⟨.nil, by simp, rfl⟩

theorem lt_size (accounted : Accounted slots vacant size) (member : index ∈ vacant)
    : index < slots.size := by
  have known := (accounted.mem_iff index).mp member
  rcases h : slots[index]? with _ | slot
  · simp [h] at known
  · exact (Array.getElem?_eq_some_iff.mp h).1

/-- Filling the vacant slot that comes first keeps the account. -/
theorem fill (accounted : Accounted slots (index :: vacant) size) (generation : UInt32)
    (value : α)
    : Accounted (slots.setIfInBounds index { generation, content := some value }) vacant
        (size + 1) := by
  obtain ⟨absent, nodup⟩ := List.nodup_cons.mp accounted.nodup
  refine ⟨nodup, ?_, ?_⟩
  · intro other
    have known := accounted.mem_iff other
    have bound := accounted.lt_size List.mem_cons_self
    rw [List.mem_cons] at known
    rw [Array.getElem?_setIfInBounds]
    by_cases same : index = other
    · subst same
      simp [bound, absent]
    · rw [if_neg same, ← known]
      simp [Ne.symm same]
  · have total := accounted.total
    simp only [List.length_cons, Array.size_setIfInBounds] at total ⊢
    omega

/-- A new filled slot keeps the account. -/
theorem push (accounted : Accounted slots vacant size) (value : α)
    : Accounted (slots.push { content := some value }) vacant (size + 1) := by
  refine ⟨accounted.nodup, ?_, ?_⟩
  · intro other
    rw [accounted.mem_iff other, Array.getElem?_push]
    by_cases same : other = slots.size <;> simp [same]
  · have total := accounted.total
    simp only [Array.size_push]
    omega

/-- Changing a value in its place keeps the account. -/
theorem modify (accounted : Accounted slots vacant size) (index : Nat) (change : α → α)
    : Accounted
        (slots.modify index fun slot => { slot with content := slot.content.map change })
        vacant size := by
  refine ⟨accounted.nodup, ?_, by simpa using accounted.total⟩
  intro other
  rw [accounted.mem_iff other, Array.getElem?_modify]
  split <;> simp [Function.comp_def]

/-- Changing all values in their places keeps the account. -/
theorem map (accounted : Accounted slots vacant size) (change : α → α)
    : Accounted (slots.map fun slot => { slot with content := slot.content.map change })
        vacant size := by
  refine ⟨accounted.nodup, ?_, by simpa using accounted.total⟩
  intro other
  rw [accounted.mem_iff other, Array.getElem?_map]
  simp [Function.comp_def]

/-- Emptying a filled slot keeps the account: the slot becomes the first vacant one, and the
vacant slots stay fewer than all, so `size` was not zero.
-/
theorem clear (accounted : Accounted slots vacant size) {generation : UInt32} {value : α}
    (filled : slots[index]? = some { generation, content := some value })
    : Accounted (slots.modify index fun slot => { slot with content := none })
        (index :: vacant) (size - 1) := by
  have absent : index ∉ vacant := by
    rw [accounted.mem_iff, filled]
    simp
  have nodup : (index :: vacant).Nodup := List.nodup_cons.mpr ⟨absent, accounted.nodup⟩
  refine ⟨nodup, ?_, ?_⟩
  · intro other
    rw [List.mem_cons, accounted.mem_iff other, Array.getElem?_modify]
    by_cases same : other = index
    · subst same
      simp [filled]
    · rw [if_neg (Ne.symm same)]
      simp [same]
  · have included : (index :: vacant) ⊆ List.range slots.size := by
      intro other member
      rw [List.mem_range]
      rcases List.mem_cons.mp member with same | member
      · exact same ▸ (Array.getElem?_eq_some_iff.mp filled).1
      · exact accounted.lt_size member
    have bound := nodup.length_le_of_subset included
    have total := accounted.total
    simp only [List.length_cons, List.length_range, Array.size_modify] at bound ⊢
    omega

end Slot.Accounted

/-- Slots addressed by handles; emptied slots are filled again, the last emptied first. -/
structure Arena (α : Type) where
  heap : Nat
  slots : Array (Slot α) := #[]
  /-- Indices of the empty slots, the last emptied first. -/
  vacant : List Nat := []
  /-- How many slots are filled. -/
  size : Nat := 0
  accounted : Slot.Accounted slots vacant size := by exact .empty

namespace Arena

variable {α : Type}

/-- The arena of heap `heap` without any slot. -/
def empty (heap : Nat) : Arena α := { heap }

/-- Fills the last emptied slot, or else a new one, and returns its handle. -/
def insert (arena : Arena α) (value : α) : Handle × Arena α :=
  match vacancy : arena.vacant with
  | index :: vacant =>
      let generation := (arena.slots.getD index {}).generation + 1
      ({ heap := arena.heap, index, generation },
        { arena with
          slots := arena.slots.setIfInBounds index { generation, content := some value }
          vacant
          size := arena.size + 1
          accounted := (vacancy ▸ arena.accounted).fill generation value })
  | [] =>
      ({ heap := arena.heap, index := arena.slots.size, generation := 0 },
        { arena with
          slots := arena.slots.push { content := some value }
          size := arena.size + 1
          accounted := arena.accounted.push value })

/-- The index of the slot that `handle` addresses, if its generation is current. -/
def locate (arena : Arena α) (handle : Handle) : Except Miss Nat :=
  if handle.heap ≠ arena.heap then
    .error .foreign
  else
    match arena.slots[handle.index]? with
    | some slot => if slot.generation = handle.generation then .ok handle.index else .error .stale
    | none => .error .stale

/-- The value that `handle` names. -/
def get (arena : Arena α) (handle : Handle) : Except Miss α := do
  let index ← arena.locate handle
  match (arena.slots.getD index {}).content with
  | some value => .ok value
  | none => .error .stale

/-- Whether `handle` names a value. -/
def contains (arena : Arena α) (handle : Handle) : Bool :=
  match arena.get handle with
  | .ok _ => true
  | .error _ => false

/-- Whether `handle` names a value that passes a test. -/
def holds (arena : Arena α) (handle : Handle) (test : α → Bool) : Bool :=
  match arena.get handle with
  | .ok value => test value
  | .error _ => false

/-- A handle names a value if it was minted here and its slot holds the value since it was
minted.
-/
theorem get_eq_ok {arena : Arena α} {handle : Handle} {value : α}
    : arena.get handle = .ok value
      ↔ handle.heap = arena.heap
        ∧ arena.slots[handle.index]?
          = some { generation := handle.generation, content := some value } := by
  unfold get locate
  by_cases foreign : handle.heap = arena.heap
  · rcases h : arena.slots[handle.index]? with _ | ⟨generation, content⟩
    · simp [foreign, bind, Except.bind]
    · by_cases current : generation = handle.generation
      · rcases content with _ | content <;> simp [foreign, current, h, bind, Except.bind]
      · simp [foreign, current, bind, Except.bind]
  · simp [foreign, bind, Except.bind]

/-- Replaces the value that `handle` names by its image under `change`; without one, nothing
changes.
-/
def modify (arena : Arena α) (handle : Handle) (change : α → α) : Arena α :=
  if arena.contains handle then
    { arena with
      slots :=
        arena.slots.modify handle.index fun slot =>
          { slot with content := slot.content.map change }
      accounted := arena.accounted.modify handle.index change }
  else
    arena

/-- Empties the slot that `handle` names; without one, nothing changes. -/
def remove (arena : Arena α) (handle : Handle) : Option α × Arena α :=
  match found : arena.get handle with
  | .error _ => (none, arena)
  | .ok value =>
      (some value,
        { arena with
          slots := arena.slots.modify handle.index fun slot => { slot with content := none }
          vacant := handle.index :: arena.vacant
          size := arena.size - 1
          accounted := arena.accounted.clear (get_eq_ok.mp found).2 })

/-- The handle of the current filling of slot `index`. -/
def handleAt (arena : Arena α) (index : Nat) : Handle :=
  { heap := arena.heap, index, generation := (arena.slots.getD index {}).generation }

/-- Every value with its handle, by ascending slot. -/
def toList (arena : Arena α) : List (Handle × α) :=
  (List.range arena.slots.size).filterMap fun index =>
    (arena.slots.getD index {}).content.map fun value => (arena.handleAt index, value)

/-- The handle of every value, by ascending slot. -/
def handles (arena : Arena α) : List Handle :=
  arena.toList.map (·.1)

/-- Replaces every value by its image under `change`. -/
def map (arena : Arena α) (change : α → α) : Arena α :=
  { arena with
    slots := arena.slots.map fun slot => { slot with content := slot.content.map change }
    accounted := arena.accounted.map change }

/-- Empties, by ascending slot, every slot whose value `keep` rejects, and says how many. -/
def retain (arena : Arena α) (keep : Handle → α → Bool) : Nat × Arena α :=
  let dropped := arena.toList.filter fun (handle, value) => !keep handle value
  (dropped.length,
    dropped.foldl (fun arena (handle, _) => (arena.remove handle).2) arena)

end Arena
end HookMachine
