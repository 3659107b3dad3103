import HookMachine.Proofs.Hook.Slots
import HookMachine.Proofs.Soundness.Closed

/-!
Histories of metamethod slots: hooks and their ends in any order, of slots of any tables, and
whatever else happens in between that leaves hooked slots alone. A hooked slot holds its last
replacement, and gets back what it held before its first hook, however often it was hooked again.
-/

namespace HookMachine

/-- What happened to the hooks of metamethod slots. -/
inductive SlotEvent where
  /-- A slot that held `before` was hooked. -/
  | installed (slot : MetamethodSlot) (before replacement : Value)
  | restored (slot : MetamethodSlot)

/-- What a slot held before the first hook that it was given since it was last unhooked, and the
replacement of the last; the last event comes first.
-/
def slotHookOf (slot : MetamethodSlot) : List SlotEvent → Option (Value × Value)
  | [] => none
  | .installed hooked before replacement :: earlier =>
      if hooked = slot then
        some (((slotHookOf slot earlier).map Prod.fst).getD before, replacement)
      else
        slotHookOf slot earlier
  | .restored unhooked :: earlier =>
      if unhooked = slot then none else slotHookOf slot earlier

namespace Machine

/-- Something happens in a heap that leaves hooked slots alone, unless their tables go. -/
structure Undisturbed (m after : Machine) : Prop where
  id : after.heap.id = m.heap.id
  minted : after.heap.Minted
  hooks : after.hooks.metamethods = m.hooks.metamethods
  slots {slot}
    : (m.hooks.metamethod? slot).isSome = true → after.heap.isLive (.table slot.1) = true
      → m.heap.isLive (.table slot.1) = true ∧ after.slotValue slot = m.slotValue slot

/-- What happens to a machine, with a log of hooks of slots, the last first. -/
inductive SlotHistory (start : Machine) : List SlotEvent → Machine → Prop
  | start : SlotHistory start [] start
  | elapsed {events m after} (history : SlotHistory start events m)
    (undisturbed : m.Undisturbed after)
    : SlotHistory start events after
  | hooked {events m object name replacement former mt after}
    (history : SlotHistory start events m) (attached : Vm.metatable object m = .ok (some mt) m)
    (ran : Hook.installMetamethod object name replacement m = .ok former after)
    : SlotHistory start
        (.installed (mt, name) (m.slotValue (mt, name)) replacement :: events) after
  | unhooked {events m object name mt after} (history : SlotHistory start events m)
    (attached : Vm.metatable object m = .ok (some mt) m)
    (ran : Hook.restoreMetamethod object name m = .ok true after)
    : SlotHistory start (.restored (mt, name) :: events) after

/-- A slot was written, and nothing else about tables changed. -/
structure WritesSlot (m after : Machine) (slot : MetamethodSlot) (value : Value) : Prop where
  written : after.slotValue slot = value
  /-- The protection of the table and all its other keys are as they were. -/
  table
    : ∃ t u, m.heap.tables.get slot.1.handle = .ok t ∧ after.heap.tables.get slot.1.handle = .ok u
        ∧ u.readOnly = t.readOnly ∧ u.metatable = t.metatable
        ∧ ∀ key, key ≠ .string slot.2 → u.get? key = t.get? key
  others {handle t}
    : handle ≠ slot.1.handle
      → (after.heap.tables.get handle = .ok t ↔ m.heap.tables.get handle = .ok t)

/-- Slots are as a log says, and so is what becomes of them. -/
structure SlotsInStep (m : Machine) (events : List SlotEvent) : Prop where
  holds {slot first replacement}
    : slotHookOf slot events = some (first, replacement)
      → m.heap.isLive (.table slot.1) = true → m.slotValue slot = replacement
  /-- Hooking a slot hands out a copy of what it held. -/
  installs {object name replacement former after}
    : Hook.installMetamethod object name replacement m = .ok former after
      → ∃ mt, Vm.metatable object m = .ok (some mt) m
          ∧ m.CopyOf after (m.slotValue (mt, name)) former
          ∧ m.WritesSlot after (mt, name) replacement
  /-- Unhooking says whether the slot was hooked. -/
  answers {object name answer after}
    : Hook.restoreMetamethod object name m = .ok answer after
      → (answer = true ↔ ∃ mt, Vm.metatable object m = .ok (some mt) m
          ∧ (slotHookOf (mt, name) events).isSome = true)
  /-- Unhooking a slot of a table that exists succeeds, and puts back what the slot held first. -/
  restores {object mt} (name : String)
    : Vm.metatable object m = .ok (some mt) m → m.heap.isLive (.table mt) = true
      → match slotHookOf (mt, name) events with
        | none => Hook.restoreMetamethod object name m = .ok false m
        | some (first, _) =>
            ∃ after, Hook.restoreMetamethod object name m = .ok true after
              ∧ m.WritesSlot after (mt, name) first

/-- The registry and the hooked slots of a machine are as a log says. -/
structure SlotsAgree (m : Machine) (events : List SlotEvent) : Prop where
  minted : m.heap.Minted
  /-- The entry of a slot keeps what the slot held before its first hook. -/
  entries (slot : MetamethodSlot)
    : (m.hooks.metamethod? slot).map (·.previous.value) = (slotHookOf slot events).map Prod.fst
  owned {slot hook}
    : m.hooks.metamethod? slot = some hook → m.heap.owns hook.previous.value = true
  holds {slot first replacement}
    : slotHookOf slot events = some (first, replacement)
      → m.heap.isLive (.table slot.1) = true → m.slotValue slot = replacement

variable {m after start : Machine} {slot other : MetamethodSlot} {value replacement : Value}
  {events : List SlotEvent} {t : Table} {hook : MetamethodHook}

-----------------------------------------------------------------------------------------
-- What writing a slot does
-----------------------------------------------------------------------------------------

theorem writesSlot (found : m.heap.tables.get slot.1.handle = .ok t)
    (tables : after.heap.tables
      = m.heap.tables.modify slot.1.handle (·.set (.string slot.2) value))
    : m.WritesSlot after slot value := by
  have there : after.heap.tables.get slot.1.handle = .ok (t.set (.string slot.2) value) := by
    rw [tables]
    exact Arena.get_modify.mpr ⟨t, found, (if_pos rfl).symm⟩
  constructor
  case written =>
    rw [slotValue, there]
    exact t.get?_set_self slot.2 value
  case table =>
    refine ⟨t, _, found, there, t.readOnly_set .., t.metatable_set .., fun key other => ?_⟩
    exact Table.get?_set_other other t value
  case others =>
    intro handle u different
    rw [tables, Arena.get_modify]
    simp only [if_neg different, exists_eq_right']

/-- Other slots are left alone, those of the same table too. -/
theorem WritesSlot.keeps (writes : m.WritesSlot after slot value) (different : other ≠ slot)
    (live : after.heap.isLive (.table other.1) = true)
    : m.heap.isLive (.table other.1) = true ∧ after.slotValue other = m.slotValue other := by
  obtain ⟨ref, name⟩ := other
  by_cases same : ref.handle = slot.1.handle
  · obtain ⟨t, u, before, there, _, _, fields⟩ := writes.table
    have named : Value.string name ≠ .string slot.2 := by
      rintro ⟨⟩
      exact different (Prod.ext (congrArg TableRef.mk same) rfl)
    rw [← same] at before there
    refine ⟨Arena.contains_iff.mpr ⟨t, before⟩, ?_⟩
    rw [slotValue_of_get there, slotValue_of_get before, fields _ named]
  · obtain ⟨t, found⟩ := Arena.contains_iff.mp live
    have before := (writes.others same).mp found
    refine ⟨Arena.contains_iff.mpr ⟨t, before⟩, ?_⟩
    rw [slotValue_of_get found, slotValue_of_get before]

theorem tables_slotHooked (m : Machine) (slot : MetamethodSlot) (replacement : Value)
    : (m.slotHooked slot replacement).heap.tables
      = m.heap.tables.modify slot.1.handle (·.set (.string slot.2) replacement) := by
  have held (value : Value) (m : Machine) : (m.hold value).2.heap.tables = m.heap.tables := rfl
  simp only [slotHooked, slotWritten, slotGuarded, held, tables_previousTaken, tables_duplicated]

theorem hooks_slotHooked (m : Machine) (slot : MetamethodSlot) (replacement : Value)
    : (m.slotHooked slot replacement).hooks
      = (m.hooks.eraseMetamethod slot).insertMetamethod slot (m.slotGuarded slot replacement).1
    := by
  have held (value : Value) (m : Machine) : (m.hold value).2.hooks = m.hooks := rfl
  simp only [slotHooked, slotWritten, slotGuarded, held, hooks_previousTaken, hooks_duplicated]

theorem previous_previousTaken (m : Machine) (slot : MetamethodSlot) (existing : Value)
    : (m.previousTaken slot existing).1.value
      = ((m.hooks.metamethod? slot).map (·.previous.value)).getD existing := by
  unfold previousTaken
  cases m.hooks.metamethod? slot <;> rfl

/-- The entry of a slot that is hooked again keeps what the slot held before its first hook. -/
theorem previous_slotGuarded (m : Machine) (slot : MetamethodSlot) (replacement : Value)
    : (m.slotGuarded slot replacement).1.previous.value
      = ((m.hooks.metamethod? slot).map (·.previous.value)).getD (m.slotValue slot) := by
  have kept := previous_previousTaken (m.duplicated (m.slotValue slot)).2 slot (m.slotValue slot)
  rw [hooks_duplicated] at kept
  exact kept

theorem id_slotHooked (m : Machine) (slot : MetamethodSlot) (replacement : Value)
    : (m.slotHooked slot replacement).heap.id = m.heap.id := by
  have held (value : Value) (m : Machine) : (m.hold value).2.heap.id = m.heap.id := rfl
  simp only [slotHooked, slotWritten, slotGuarded, held, id_previousTaken, id_duplicated]

theorem minted_duplicated (minted : m.heap.Minted) (value : Value)
    : (m.duplicated value).2.heap.Minted := by
  unfold duplicated
  split
  · split
    · exact { minted with closures := (Arena.heap_insert ..).trans minted.closures }
    · exact minted
  · split
    · exact { minted with natives := (Arena.heap_insert ..).trans minted.natives }
    · exact minted
  · exact minted

theorem minted_slotHooked (minted : m.heap.Minted) (slot : MetamethodSlot) (replacement : Value)
    : (m.slotHooked slot replacement).heap.Minted := by
  have copied := minted_duplicated minted (m.slotValue slot)
  refine ⟨?_, ?_, ?_⟩ <;> rw [id_slotHooked]
  · rw [tables_slotHooked, Arena.heap_modify, minted.tables]
  · rw [closures_slotHooked, copied.closures, id_duplicated]
  · rw [natives_slotHooked, copied.natives, id_duplicated]

/-- Unhooking a slot changes tables, the registry and what is retained only. -/
theorem slotUnhooked_eq (m : Machine) (slot : MetamethodSlot) (hook : MetamethodHook)
    : ∃ retained out,
        m.slotUnhooked slot hook
          = { m with
              heap.tables :=
                m.heap.tables.modify slot.1.handle (·.set (.string slot.2) hook.previous.value)
              heap.retained := retained
              guards := out
              hooks := m.hooks.eraseMetamethod slot } :=
  letGoAll_eq ..

theorem tables_slotUnhooked (m : Machine) (slot : MetamethodSlot) (hook : MetamethodHook)
    : (m.slotUnhooked slot hook).heap.tables
      = m.heap.tables.modify slot.1.handle (·.set (.string slot.2) hook.previous.value) := by
  obtain ⟨_, _, same⟩ := m.slotUnhooked_eq slot hook
  rw [same]

theorem hooks_slotUnhooked (m : Machine) (slot : MetamethodSlot) (hook : MetamethodHook)
    : (m.slotUnhooked slot hook).hooks = m.hooks.eraseMetamethod slot := by
  obtain ⟨_, _, same⟩ := m.slotUnhooked_eq slot hook
  rw [same]

theorem id_slotUnhooked (m : Machine) (slot : MetamethodSlot) (hook : MetamethodHook)
    : (m.slotUnhooked slot hook).heap.id = m.heap.id := by
  obtain ⟨_, _, same⟩ := m.slotUnhooked_eq slot hook
  rw [same]

theorem minted_slotUnhooked (minted : m.heap.Minted) (slot : MetamethodSlot)
    (hook : MetamethodHook)
    : (m.slotUnhooked slot hook).heap.Minted := by
  obtain ⟨_, _, same⟩ := m.slotUnhooked_eq slot hook
  rw [same]
  exact { minted with tables := (Arena.heap_modify ..).trans minted.tables }

-----------------------------------------------------------------------------------------
-- Machines agree with their histories
-----------------------------------------------------------------------------------------

namespace SlotsAgree

theorem of_unhooked (minted : m.heap.Minted) (unhooked : m.hooks.metamethods = [])
    : m.SlotsAgree [] := by
  have empty (slot : MetamethodSlot) : m.hooks.metamethod? slot = none := by
    rw [HookRegistry.metamethod?, unhooked]
    rfl
  constructor
  case minted => exact minted
  case entries =>
    intro slot
    rw [empty]
    rfl
  case owned =>
    intro slot hook entry
    cases (empty slot).symm.trans entry
  case holds =>
    intro slot first replacement said
    cases said

/-- A slot has an entry if the log says that it is hooked. -/
theorem metamethod?_isSome (agrees : m.SlotsAgree events) (slot : MetamethodSlot)
    : (m.hooks.metamethod? slot).isSome = (slotHookOf slot events).isSome := by
  simpa only [Option.isSome_map] using congrArg Option.isSome (agrees.entries slot)

/-- What leaves hooked slots alone leaves the agreement. -/
theorem undisturbed (agrees : m.SlotsAgree events) (undisturbed : m.Undisturbed after)
    : after.SlotsAgree events := by
  have same (slot : MetamethodSlot) : after.hooks.metamethod? slot = m.hooks.metamethod? slot := by
    rw [HookRegistry.metamethod?, HookRegistry.metamethod?, undisturbed.hooks]
  constructor
  case minted => exact undisturbed.minted
  case entries =>
    intro slot
    rw [same, agrees.entries]
  case owned =>
    intro slot hook entry
    rw [Heap.owns_congr undisturbed.id]
    exact agrees.owned ((same slot).symm.trans entry)
  case holds =>
    intro slot first replacement said live
    have hooked : (m.hooks.metamethod? slot).isSome = true := by
      rw [agrees.metamethod?_isSome, said]
      rfl
    obtain ⟨before, kept⟩ := undisturbed.slots hooked live
    rw [kept]
    exact agrees.holds said before

/-- What the log says of slots holds of all that are not written. -/
theorem holds_other (agrees : m.SlotsAgree events) (writes : m.WritesSlot after slot value)
    (different : other ≠ slot) {first : Value}
    (said : slotHookOf other events = some (first, replacement))
    (live : after.heap.isLive (.table other.1) = true)
    : after.slotValue other = replacement := by
  obtain ⟨before, kept⟩ := writes.keeps different live
  rw [kept]
  exact agrees.holds said before

/-- A slot that is hooked holds the replacement, and its entry what the log says it held first. -/
theorem hooked (agrees : m.SlotsAgree events) (found : m.heap.tables.get slot.1.handle = .ok t)
    (owned : m.heap.owns (m.slotValue slot) = true) (replacement : Value)
    : (m.slotHooked slot replacement).SlotsAgree
        (.installed slot (m.slotValue slot) replacement :: events) := by
  have writes := writesSlot found (m.tables_slotHooked slot replacement)
  have previous := m.previous_slotGuarded slot replacement
  constructor
  case minted => exact minted_slotHooked agrees.minted slot replacement
  case entries =>
    intro other
    rw [hooks_slotHooked, HookRegistry.metamethod?_insertMetamethod,
      HookRegistry.metamethod?_eraseMetamethod, slotHookOf]
    by_cases same : other = slot
    · subst same
      rw [if_pos rfl, if_pos rfl, Option.map_some, previous, agrees.entries]
      rfl
    · rw [if_neg same, if_neg same, if_neg (Ne.symm same), agrees.entries]
  case owned =>
    intro other hook entry
    rw [hooks_slotHooked, HookRegistry.metamethod?_insertMetamethod,
      HookRegistry.metamethod?_eraseMetamethod] at entry
    rw [Heap.owns_congr (m.id_slotHooked slot replacement)]
    by_cases same : other = slot
    · rw [if_pos same] at entry
      rw [← Option.some.inj entry, previous]
      -- The entry takes over what was kept for an earlier hook, else what the slot holds.
      cases before : m.hooks.metamethod? slot with
      | none => exact owned
      | some hook => exact agrees.owned before
    · rw [if_neg same, if_neg same] at entry
      exact agrees.owned entry
  case holds =>
    intro other first last said live
    rw [slotHookOf] at said
    by_cases same : other = slot
    · subst same
      rw [if_pos rfl] at said
      rw [writes.written]
      exact (Prod.mk.inj (Option.some.inj said)).2
    · rw [if_neg (Ne.symm same)] at said
      exact agrees.holds_other writes same said live

/-- A slot that is unhooked has no entry any more. -/
theorem unhooked (agrees : m.SlotsAgree events) (found : m.heap.tables.get slot.1.handle = .ok t)
    (hook : MetamethodHook)
    : (m.slotUnhooked slot hook).SlotsAgree (.restored slot :: events) := by
  have writes := writesSlot found (m.tables_slotUnhooked slot hook)
  constructor
  case minted => exact minted_slotUnhooked agrees.minted slot hook
  case entries =>
    intro other
    rw [hooks_slotUnhooked, HookRegistry.metamethod?_eraseMetamethod, slotHookOf]
    by_cases same : other = slot
    · rw [if_pos same, if_pos same.symm]
      rfl
    · rw [if_neg same, if_neg (Ne.symm same), agrees.entries]
  case owned =>
    intro other hook entry
    rw [hooks_slotUnhooked, HookRegistry.metamethod?_eraseMetamethod] at entry
    rw [Heap.owns_congr (id_slotUnhooked ..)]
    by_cases same : other = slot
    · rw [if_pos same] at entry
      cases entry
    · rw [if_neg same] at entry
      exact agrees.owned entry
  case holds =>
    intro other first last said live
    rw [slotHookOf] at said
    by_cases same : other = slot
    · rw [if_pos same.symm] at said
      cases said
    · rw [if_neg (Ne.symm same)] at said
      exact agrees.holds_other writes same said live

/-- Machines agree with the logs of their histories, by induction over the history. -/
theorem of_history (minted : start.heap.Minted) (unhooked : start.hooks.metamethods = [])
    (history : start.SlotHistory events m)
    : m.SlotsAgree events := by
  induction history with
  | start => exact .of_unhooked minted unhooked
  | elapsed _ undisturbed ih => exact ih.undisturbed undisturbed
  | hooked _ attached ran ih =>
      obtain ⟨mt, t, there, found, owned, _, rfl⟩ := Hook.eq_of_installMetamethod ih.minted ran
      obtain ⟨⟨⟩, -⟩ := EStateM.Result.ok.inj (attached.symm.trans there)
      exact ih.hooked found owned _
  | unhooked _ attached ran ih =>
      rcases Hook.eq_of_restoreMetamethod ran with ⟨⟨⟩, _⟩ | ⟨mt, t, hook, _, there, found, _, rfl⟩
      obtain ⟨⟨⟩, -⟩ := EStateM.Result.ok.inj (attached.symm.trans there)
      exact ih.unhooked found hook

-----------------------------------------------------------------------------------------
-- What agreement says of slots
-----------------------------------------------------------------------------------------

/-- Slots of a machine that agrees with a log are as the log says. -/
theorem inStep (agrees : m.SlotsAgree events) : m.SlotsInStep events where
  holds := agrees.holds
  installs {object name replacement former after} ran := by
    obtain ⟨mt, t, attached, found, _, copy, rfl⟩ := Hook.eq_of_installMetamethod agrees.minted ran
    exact ⟨mt, attached, copy, writesSlot found (m.tables_slotHooked ..)⟩
  answers {object name answer after} ran := by
    rcases Hook.eq_of_restoreMetamethod ran with
      ⟨rfl, _, unhooked⟩ | ⟨mt, _, hook, rfl, attached, _, entry, _⟩
    · refine iff_of_false Bool.false_ne_true ?_
      rintro ⟨mt, attached, hooked⟩
      rw [← agrees.metamethod?_isSome, unhooked mt attached] at hooked
      cases hooked
    · refine iff_of_true rfl ⟨mt, attached, ?_⟩
      rw [← agrees.metamethod?_isSome, entry]
      rfl
  restores {object mt} name attached live := by
    obtain ⟨t, found⟩ := Arena.contains_iff.mp live
    have said := agrees.entries (mt, name)
    cases entry : m.hooks.metamethod? (mt, name) with
    | none =>
        rw [entry] at said
        rw [Option.map_eq_none_iff.mp said.symm]
        exact Hook.restoreMetamethod_of_none attached entry
    | some hook =>
        rw [entry] at said
        obtain ⟨⟨first, last⟩, known, same⟩ := Option.map_eq_some_iff.mp said.symm
        rw [known]
        refine ⟨_, Hook.restoreMetamethod_of_get attached entry found (agrees.owned entry), ?_⟩
        obtain rfl : first = hook.previous.value := same
        exact writesSlot found (m.tables_slotUnhooked ..)

end SlotsAgree

/-- Hooking a slot that succeeds is logged. -/
theorem SlotHistory.installed {object former : Value} {name : String}
    (history : start.SlotHistory events m) (minted : m.heap.Minted)
    (ran : Hook.installMetamethod object name replacement m = .ok former after)
    : ∃ event, start.SlotHistory (event :: events) after := by
  obtain ⟨mt, _, attached, _⟩ := Hook.eq_of_installMetamethod minted ran
  exact ⟨_, history.hooked attached ran⟩

/-- A collection leaves hooked slots alone: it keeps tables as they are, or not at all. -/
theorem undisturbed_collect {rules : Rules} {own : List Guard} (sound : rules.Sound own m)
    : m.Undisturbed m.collect.2 := by
  by_cases active : 0 < m.activeCalls
  · have busy : m.collect = (none, m) := if_pos active
    rw [busy]
    exact ⟨rfl, sound.minted, rfl, fun _ live => ⟨live, rfl⟩⟩
  · have minted := sound.collect.minted
    have swept
        : m.collect.2
          = { m with heap := (m.heap.collect m.surroundings [.table m.globals]).2 } := by
      rw [collect, if_neg active]
      rfl
    rw [swept] at minted ⊢
    refine ⟨Heap.id_collect .., minted, rfl, fun {slot} _ live => ?_⟩
    obtain ⟨t, found⟩ := Arena.contains_iff.mp live
    have before := ((Heap.get_tables_collect sound.unmarked).mp found).1
    refine ⟨Arena.contains_iff.mpr ⟨t, before⟩, ?_⟩
    rw [slotValue, slotValue, found, before]

end Machine

-----------------------------------------------------------------------------------------
-- Whatever happens to slots
-----------------------------------------------------------------------------------------

namespace Situation

/-- A step leaves hooked slots alone if it leaves their entries and what they hold: no step turns
to another heap.
-/
theorem Reached.undisturbed {s t : Situation} (reached : s.Reached) (step : Rules.lax.Step s t)
    (hooks : t.machine.hooks.metamethods = s.machine.hooks.metamethods)
    (slots : ∀ slot, (s.machine.hooks.metamethod? slot).isSome = true
      → t.machine.heap.isLive (.table slot.1) = true
      → s.machine.heap.isLive (.table slot.1) = true
          ∧ t.machine.slotValue slot = s.machine.slotValue slot)
    : s.machine.Undisturbed t.machine := by
  have sound := reached.sound
  refine ⟨?_, (sound.step step).sound.minted, hooks, fun {slot} => slots slot⟩
  rcases sound.altered step with altered | collected
  · exact altered.id
  · rw [collected]
    exact (Machine.undisturbed_collect sound.sound).id

/-- From a runtime without hooked slots on, slots are in step with the log of every history. -/
theorem slotsInStep_of_history {s : Situation} {events : List SlotEvent} {m : Machine}
    (reached : s.Reached) (unhooked : s.machine.hooks.metamethods = [])
    (history : s.machine.SlotHistory events m)
    : m.SlotsInStep events :=
  (Machine.SlotsAgree.of_history reached.sound.sound.minted unhooked history).inStep

/-- A slot is hooked, hooked again, and lives through a collection. -/
theorem slotsInStep_of_history_rehooked
    : ∃ (s : Situation) (events : List SlotEvent) (m : Machine),
        s.machine.SlotHistory events m ∧ events.length = 2 ∧ m.SlotsInStep events := by
  let object : TableRef := ⟨⟨1, 1, 0⟩⟩
  let mt : TableRef := ⟨⟨1, 2, 0⟩⟩
  let native (index : Nat) : Value := .native ⟨⟨1, index, 0⟩⟩
  let hook (index : Nat) : Request := .hookMetamethod (.table object) "__index" (native index)
  let succeeds (m : Machine) (index : Nat) : Bool :=
    match Hook.installMetamethod (.table object) "__index" (native index) m with
    | .ok .. => true
    | .error .. => false
  let requests : List Request :=
    [.newTable, .newTable, .rawSet mt (.string "__index") (native 0),
      .setMetatable object (some mt)]
  obtain ⟨m, reached, unhooked, once, twice⟩
      : ∃ m, Reached ⟨m, [], []⟩ ∧ m.hooks.metamethods.isEmpty = true ∧ succeeds m 1 = true
          ∧ succeeds (m.served [hook 1]) 2 = true :=
    ⟨(Machine.create 1 {}).served requests, Reached.served rfl ⟨1, {}, .refl⟩,
      by decide +kernel, by decide +kernel, by decide +kernel⟩
  have unhooked := List.isEmpty_iff.mp unhooked
  have hooked {m : Machine} (index : Nat) (ok : succeeds m index = true)
      : ∃ former,
          Hook.installMetamethod (.table object) "__index" (native index) m
            = .ok former (m.served [hook index]) := by
    have left
        : m.served [hook index]
          = (Hook.installMetamethod (.table object) "__index" (native index)).leaves m :=
      rfl
    rw [left, Run.leaves]
    simp only [succeeds] at ok
    split at ok
    · rename_i former after ran
      exact ⟨former, by rw [ran]⟩
    · cases ok
  have minted {events : List SlotEvent} {after : Machine} (history : m.SlotHistory events after)
      : after.heap.Minted :=
    (Machine.SlotsAgree.of_history reached.sound.sound.minted unhooked history).minted
  obtain ⟨_, first⟩ := hooked 1 once
  obtain ⟨_, second⟩ := hooked 2 twice
  obtain ⟨_, history⟩ := Machine.SlotHistory.start.installed reached.sound.sound.minted first
  obtain ⟨_, history⟩ := history.installed (minted history) second
  have still : Reached ⟨(m.served [hook 1]).served [hook 2], [], []⟩ := (reached.served rfl).served rfl
  have history := history.elapsed (Machine.undisturbed_collect still.sound.sound)
  exact ⟨_, _, _, history, rfl, slotsInStep_of_history reached unhooked history⟩

end Situation
end HookMachine
