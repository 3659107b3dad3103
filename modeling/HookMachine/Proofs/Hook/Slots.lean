import HookMachine.Proofs.Hook.Entries
import HookMachine.Proofs.Hook.Installation
import HookMachine.Proofs.Table.Alteration
import HookMachine.Proofs.Table.Fields

/-!
Hooking a metamethod slot and unhooking it, as one change of the machine each. All that can go
wrong once the slot's former hook is given up is that the replacement belongs to another heap.
-/

namespace HookMachine

namespace Machine

/-- What a metamethod slot holds. -/
def slotValue (m : Machine) (slot : MetamethodSlot) : Value :=
  match m.heap.tables.get slot.1.handle with
  | .ok t => .orNil (t.get? (.string slot.2))
  | .error _ => .nil

/-- What is handed out for a value that a hook replaces: a copy of a function, and anything else
itself.
-/
def duplicated (m : Machine) (value : Value) : Value × Machine :=
  match value with
  | .closure ref =>
      match m.heap.closures.get ref.handle with
      | .ok c =>
          let (copy, m) := m.copied c
          (.closure copy, m)
      | .error _ => (value, m)
  | .native ref =>
      match m.heap.natives.get ref.handle with
      | .ok n =>
          let (handle, natives) := m.heap.natives.insert { n with marked := false }
          (.native ⟨handle⟩, { m with heap.natives := natives })
      | .error _ => (value, m)
  | other => (other, m)

/-- What is handed out for a value in a later machine: for a function, a new one that is the same
but for redirects; anything else itself.
-/
inductive CopyOf (m after : Machine) : Value → Value → Prop
  | closure {ref copy c} (found : m.heap.closures.get ref.handle = .ok c)
    (new : ∀ other, m.heap.closures.get copy.handle ≠ .ok other)
    (same : after.heap.closures.get copy.handle
      = .ok { c with redirect := none, marked := false })
    : CopyOf m after (.closure ref) (.closure copy)
  | native {ref copy n} (found : m.heap.natives.get ref.handle = .ok n)
    (new : ∀ other, m.heap.natives.get copy.handle ≠ .ok other)
    (same : after.heap.natives.get copy.handle = .ok { n with marked := false })
    : CopyOf m after (.native ref) (.native copy)
  | itself {value} (plain : value.isFunction = false) : CopyOf m after value value

/-- The guard of what a slot held before its first hook; any hook of the slot is given up. -/
def previousTaken (m : Machine) (slot : MetamethodSlot) (existing : Value) : Guard × Machine :=
  match m.hooks.metamethod? slot with
  | some hook =>
      (hook.previous,
        { m with hooks := m.hooks.eraseMetamethod slot }.letGoAll [hook.former, hook.replacement])
  | none => m.hold existing

/-- The machine with another value in a slot. -/
def slotWritten (m : Machine) (slot : MetamethodSlot) (value : Value) : Machine :=
  { m with heap.tables := m.heap.tables.modify slot.1.handle (·.set (.string slot.2) value) }

/-- The hook of a slot, and the machine that retains what it needs. -/
def slotGuarded (m : Machine) (slot : MetamethodSlot) (replacement : Value)
    : MetamethodHook × Machine :=
  let existing := m.slotValue slot
  let (former, m) := m.duplicated existing
  let (previous, m) := m.previousTaken slot existing
  let (former, m) := m.hold former
  let (replacement, m) := m.hold replacement
  ({ previous, former, replacement }, m)

/-- A slot hooked. -/
def slotHooked (m : Machine) (slot : MetamethodSlot) (replacement : Value) : Machine :=
  let (hook, m) := m.slotGuarded slot replacement
  let m := m.slotWritten slot replacement
  { m with hooks := m.hooks.insertMetamethod slot hook }

/-- What is left of hooking a slot with a function of another heap: the copy that nobody keeps, and
no hook.
-/
def slotAbandoned (m : Machine) (slot : MetamethodSlot) : Machine :=
  let existing := m.slotValue slot
  let (former, m) := m.duplicated existing
  let (previous, m) := m.previousTaken slot existing
  let (former, m) := m.hold former
  m.letGoAll [former, previous]

/-- A slot unhooked. -/
def slotUnhooked (m : Machine) (slot : MetamethodSlot) (hook : MetamethodHook) : Machine :=
  ({ m with hooks := m.hooks.eraseMetamethod slot }.slotWritten slot hook.previous.value).letGoAll
    hook.guards

end Machine

variable {m : Machine} {object replacement value : Value} {name : String} {mt : TableRef}
  {slot : MetamethodSlot} {t : Table}

-----------------------------------------------------------------------------------------
-- What copying and retaining leave alone
-----------------------------------------------------------------------------------------

namespace Machine

theorem slotValue_of_get (found : m.heap.tables.get mt.handle = .ok t)
    : m.slotValue (mt, name) = .orNil (t.get? (.string name)) := by
  rw [slotValue, found]

/-- Copying a value adds to the closures and natives only. -/
theorem duplicated_eq (m : Machine) (value : Value)
    : ∃ closures natives,
        (m.duplicated value).2
          = { m with heap.closures := closures, heap.natives := natives } := by
  unfold duplicated
  split
  · split <;> exact ⟨_, _, rfl⟩
  · split <;> exact ⟨_, _, rfl⟩
  · exact ⟨_, _, rfl⟩

@[simp]
theorem tables_duplicated (m : Machine) (value : Value)
    : (m.duplicated value).2.heap.tables = m.heap.tables := by
  obtain ⟨_, _, same⟩ := m.duplicated_eq value
  rw [same]

@[simp]
theorem retained_duplicated (m : Machine) (value : Value)
    : (m.duplicated value).2.heap.retained = m.heap.retained := by
  obtain ⟨_, _, same⟩ := m.duplicated_eq value
  rw [same]

@[simp]
theorem id_duplicated (m : Machine) (value : Value)
    : (m.duplicated value).2.heap.id = m.heap.id := by
  obtain ⟨_, _, same⟩ := m.duplicated_eq value
  rw [same]

@[simp]
theorem hooks_duplicated (m : Machine) (value : Value)
    : (m.duplicated value).2.hooks = m.hooks := by
  obtain ⟨_, _, same⟩ := m.duplicated_eq value
  rw [same]

@[simp]
theorem guards_duplicated (m : Machine) (value : Value)
    : (m.duplicated value).2.guards = m.guards := by
  obtain ⟨_, _, same⟩ := m.duplicated_eq value
  rw [same]

/-- Giving up the hook of a slot changes the registry and what is retained only. -/
theorem previousTaken_eq (m : Machine) (slot : MetamethodSlot) (existing : Value)
    : ∃ retained out,
        (m.previousTaken slot existing).2
          = { m with
              heap.retained := retained
              guards := out
              hooks := m.hooks.eraseMetamethod slot } := by
  unfold previousTaken
  split
  · exact letGoAll_eq ..
  · rename_i unhooked
    rw [HookRegistry.eraseMetamethod_of_none _ unhooked]
    exact ⟨_, _, rfl⟩

@[simp]
theorem tables_previousTaken (m : Machine) (slot : MetamethodSlot) (existing : Value)
    : (m.previousTaken slot existing).2.heap.tables = m.heap.tables := by
  obtain ⟨_, _, same⟩ := m.previousTaken_eq slot existing
  rw [same]

@[simp]
theorem closures_previousTaken (m : Machine) (slot : MetamethodSlot) (existing : Value)
    : (m.previousTaken slot existing).2.heap.closures = m.heap.closures := by
  obtain ⟨_, _, same⟩ := m.previousTaken_eq slot existing
  rw [same]

@[simp]
theorem natives_previousTaken (m : Machine) (slot : MetamethodSlot) (existing : Value)
    : (m.previousTaken slot existing).2.heap.natives = m.heap.natives := by
  obtain ⟨_, _, same⟩ := m.previousTaken_eq slot existing
  rw [same]

@[simp]
theorem id_previousTaken (m : Machine) (slot : MetamethodSlot) (existing : Value)
    : (m.previousTaken slot existing).2.heap.id = m.heap.id := by
  obtain ⟨_, _, same⟩ := m.previousTaken_eq slot existing
  rw [same]

@[simp]
theorem hooks_previousTaken (m : Machine) (slot : MetamethodSlot) (existing : Value)
    : (m.previousTaken slot existing).2.hooks = m.hooks.eraseMetamethod slot := by
  obtain ⟨_, _, same⟩ := m.previousTaken_eq slot existing
  rw [same]

theorem closures_slotHooked (m : Machine) (slot : MetamethodSlot) (replacement : Value)
    : (m.slotHooked slot replacement).heap.closures
      = (m.duplicated (m.slotValue slot)).2.heap.closures :=
  closures_previousTaken ..

theorem natives_slotHooked (m : Machine) (slot : MetamethodSlot) (replacement : Value)
    : (m.slotHooked slot replacement).heap.natives
      = (m.duplicated (m.slotValue slot)).2.heap.natives :=
  natives_previousTaken ..

/-- Copies stay where closures and natives are the same. -/
theorem CopyOf.of_heap {middle after : Machine} {former : Value}
    (copy : m.CopyOf middle value former) (closures : after.heap.closures = middle.heap.closures)
    (natives : after.heap.natives = middle.heap.natives)
    : m.CopyOf after value former := by
  cases copy with
  | closure found new same => exact .closure found new (closures ▸ same)
  | native found new same => exact .native found new (natives ▸ same)
  | itself plain => exact .itself plain

end Machine

-----------------------------------------------------------------------------------------
-- What the parts of hooking a slot do
-----------------------------------------------------------------------------------------

/-- Copying a value succeeds, and what it makes belongs to the heap; or it changes nothing. -/
theorem Vm.clone_cases (minted : m.heap.Minted) (value : Value)
    : (∃ copy, clone value m = .ok copy (m.duplicated value).2
          ∧ copy.getD value = (m.duplicated value).1
          ∧ m.heap.owns value = true ∧ m.heap.owns (m.duplicated value).1 = true
          ∧ m.CopyOf (m.duplicated value).2 value (m.duplicated value).1)
      ∨ ∃ fault, clone value m = .error (.failed fault) m := by
  cases owned : m.heap.owns value with
  | false => exact .inr ⟨_, Run.bind_error (checkOwner_of_foreign owned)⟩
  | true =>
      have checked := checkOwner_of_owns owned
      cases value with
      | closure ref =>
          cases found : m.heap.closures.get ref.handle with
          | ok c =>
              have duplicated
                  : m.duplicated (.closure ref) = (.closure (m.copied c).1, (m.copied c).2) := by
                simp only [Machine.duplicated, found]
              rw [duplicated]
              refine .inl ⟨_, clone_of_get minted found, rfl, rfl, Hook.owns_copied minted c, ?_⟩
              exact .closure found (Arena.get_insert_fresh m.heap.closures _)
                (Arena.get_insert_self ..)
          | error miss =>
              refine .inr ⟨.ofMiss miss, (Run.bind_ok checked).trans ?_⟩
              exact Run.bind_error (closure_of_miss found)
      | native ref =>
          cases found : m.heap.natives.get ref.handle with
          | ok n =>
              have duplicated
                  : m.duplicated (.native ref)
                    = (.native ⟨(m.heap.natives.insert { n with marked := false }).1⟩,
                        { m with
                          heap.natives := (m.heap.natives.insert { n with marked := false }).2 })
                  := by
                simp only [Machine.duplicated, found]
              have made := Arena.heap_of_get
                (Arena.get_insert_self m.heap.natives { n with marked := false })
              rw [Arena.heap_insert, minted.natives] at made
              have ran
                  : clone (.native ref) m
                    = .ok (some (m.duplicated (.native ref)).1) (m.duplicated (.native ref)).2 := by
                rw [duplicated]
                exact (Run.bind_ok checked).trans (Run.bind_ok (native_of_get found))
              rw [duplicated] at ran ⊢
              refine .inl ⟨_, ran, rfl, rfl, ?_, ?_⟩
              · simpa [Heap.owns, Value.handle?] using made
              · exact .native found (Arena.get_insert_fresh m.heap.natives _)
                  (Arena.get_insert_self ..)
          | error miss =>
              refine .inr ⟨.ofMiss miss, (Run.bind_ok checked).trans ?_⟩
              exact Run.bind_error (native_of_miss found)
      | _ => exact .inl ⟨none, Run.bind_ok checked, rfl, rfl, owned, .itself rfl⟩

namespace Hook

theorem takePrevious_eq {existing : Value} (owned : m.heap.owns existing = true)
    : takePrevious slot existing m
      = .ok (m.previousTaken slot existing).1 (m.previousTaken slot existing).2 := by
  refine (Run.bind_get ..).trans ?_
  unfold Machine.previousTaken
  cases m.hooks.metamethod? slot with
  | some hook => rfl
  | none => exact Run.lift_ok (Vm.hold_of_owns owned)

/-- Writing a slot lifts the protection of its table for nothing but the write. -/
theorem writeUnprotected_of_get (found : m.heap.tables.get mt.handle = .ok t)
    (owned : m.heap.owns value = true)
    : writeUnprotected mt (.string name) value m = .ok () (m.slotWritten (mt, name) value) := by
  let key : Value := .string name
  let lifted : Machine :=
    { m with heap.tables := m.heap.tables.modify mt.handle ({ · with readOnly := false }) }
  let written : Machine :=
    { lifted with heap.tables := lifted.heap.tables.modify mt.handle (·.set key value) }
  have lifted_found : lifted.heap.tables.get mt.handle = .ok { t with readOnly := false } :=
    Arena.get_modify.mpr ⟨t, found, (if_pos rfl).symm⟩
  have written_found
      : written.heap.tables.get mt.handle
        = .ok (({ t with readOnly := false } : Table).set key value) :=
    Arena.get_modify.mpr ⟨_, lifted_found, (if_pos rfl).symm⟩
  have lift : Vm.setReadOnly mt false m = .ok () lifted := Run.bind_ok (Vm.table_of_get found)
  have write : Vm.rawSet mt key value lifted = .ok () written := by
    have allowed : Vm.checkKey key lifted = .ok () lifted := rfl
    have checked : Vm.checkOwner value lifted = .ok () lifted := Vm.checkOwner_of_owns owned
    refine (Run.bind_ok allowed).trans ((Run.bind_ok checked).trans ?_)
    refine (Run.bind_ok (Vm.table_of_get lifted_found)).trans ?_
    exact Run.bind_ok (Vm.table_of_get lifted_found)
  have back : Vm.setReadOnly mt t.readOnly written = .ok () (m.slotWritten (mt, name) value) := by
    have same
        : ((m.heap.tables.modify mt.handle ({ · with readOnly := false })).modify
              mt.handle (·.set key value)).modify
            mt.handle ({ · with readOnly := t.readOnly })
          = m.heap.tables.modify mt.handle (·.set key value) := by
      rw [Arena.modify_modify, Arena.modify_modify]
      exact Arena.modify_congr found (t.set_unprotected key value)
    refine (Run.bind_ok (Vm.table_of_get written_found)).trans ?_
    rw [Machine.slotWritten, ← same]
    rfl
  refine (Run.bind_ok (Vm.table_of_get found)).trans ?_
  refine (Run.bind_ok lift).trans ?_
  refine (Run.bind_ok (Run.attempt_ok write)).trans ?_
  exact Run.bind_ok back

/-- A value of another heap is not written, and the protection is put back. -/
theorem writeUnprotected_of_foreign (found : m.heap.tables.get mt.handle = .ok t)
    (foreign : m.heap.owns value = false)
    : writeUnprotected mt (.string name) value m = .error (.failed .foreignHandle) m := by
  let lifted : Machine :=
    { m with heap.tables := m.heap.tables.modify mt.handle ({ · with readOnly := false }) }
  have lifted_found : lifted.heap.tables.get mt.handle = .ok { t with readOnly := false } :=
    Arena.get_modify.mpr ⟨t, found, (if_pos rfl).symm⟩
  have lift : Vm.setReadOnly mt false m = .ok () lifted := Run.bind_ok (Vm.table_of_get found)
  have refused
      : Vm.rawSet mt (.string name) value lifted
        = .error (.failed .foreignHandle) lifted := by
    have allowed : Vm.checkKey (.string name) lifted = .ok () lifted := rfl
    have checked : Vm.checkOwner value lifted = .error (.failed .foreignHandle) lifted :=
      Vm.checkOwner_of_foreign foreign
    exact (Run.bind_ok allowed).trans (Run.bind_error checked)
  have back : Vm.setReadOnly mt t.readOnly lifted = .ok () m := by
    have same
        : (m.heap.tables.modify mt.handle ({ · with readOnly := false })).modify
            mt.handle ({ · with readOnly := t.readOnly })
          = m.heap.tables := by
      rw [Arena.modify_modify]
      exact Arena.modify_eq_self found rfl
    refine (Run.bind_ok (Vm.table_of_get lifted_found)).trans ?_
    change EStateM.Result.ok () { m with heap.tables := _ } = _
    rw [same]
  refine (Run.bind_ok (Vm.table_of_get found)).trans ((Run.bind_ok lift).trans ?_)
  exact (Run.bind_ok (Run.attempt_error refused)).trans (Run.bind_ok back)

theorem writeUnprotected_of_miss {miss : Miss} {key : Value}
    (missed : m.heap.tables.get mt.handle = .error miss)
    : writeUnprotected mt key value m = .error (.failed (.ofMiss miss)) m :=
  Run.bind_error (Vm.table_of_miss missed)

theorem metatable_cases (m : Machine) (object : Value)
    : (∃ mt, Vm.metatable object m = .ok mt m)
      ∨ ∃ fault, Vm.metatable object m = .error (.failed fault) m := by
  cases object with
  | table ref =>
      cases found : m.heap.tables.get ref.handle with
      | ok t => exact .inl ⟨_, Run.bind_ok (Vm.table_of_get found)⟩
      | error miss => exact .inr ⟨_, Run.bind_error (Vm.table_of_miss found)⟩
  | _ => exact .inl ⟨none, rfl⟩

/-- Metatables are the same where tables are. -/
theorem metatable_of_tables {after : Machine} {mt : Option TableRef}
    (same : after.heap.tables = m.heap.tables) (attached : Vm.metatable object m = .ok mt m)
    : Vm.metatable object after = .ok mt after := by
  cases object with
  | table ref =>
      cases found : m.heap.tables.get ref.handle with
      | ok t =>
          have read : Vm.metatable (.table ref) m = .ok t.metatable m :=
            Run.bind_ok (Vm.table_of_get found)
          obtain ⟨rfl, -⟩ := EStateM.Result.ok.inj (attached.symm.trans read)
          rw [← same] at found
          exact Run.bind_ok (Vm.table_of_get found)
      | error miss => cases attached.symm.trans (Run.bind_error (Vm.table_of_miss found))
  | _ =>
      obtain ⟨rfl, -⟩ := EStateM.Result.ok.inj attached
      rfl

section Attached

variable (callable : replacement.isFunction = true)
  (attached : Vm.metatable object m = .ok (some mt) m)
  (found : m.heap.tables.get mt.handle = .ok t)

include callable attached found

/-- Until the slot is read, hooking it changes nothing. -/
theorem installMetamethod_of_get
    : installMetamethod object name replacement m
      = (do
          let existing := m.slotValue (mt, name)
          if existing.isNil then
            Action.refuse (.noMetamethod name)
          let former := (← Vm.clone existing).getD existing
          let previous ← takePrevious (mt, name) existing
          let formerGuard ← Run.onHalt (Vm.hold former) (·.letGo previous)
          let replacementGuard ←
            Run.onHalt (Vm.hold replacement) (·.letGoAll [formerGuard, previous])
          let hook : MetamethodHook :=
            { previous, former := formerGuard, replacement := replacementGuard }
          Run.onHalt (writeUnprotected mt (.string name) replacement)
            (·.letGoAll hook.guards)
          modify fun m => { m with hooks := m.hooks.insertMetamethod (mt, name) hook }
          return former : Action Value) m := by
  have read : Vm.rawGet mt (.string name) m = .ok (m.slotValue (mt, name)) m := by
    rw [Machine.slotValue_of_get found]
    exact Run.bind_ok (Vm.table_of_get found)
  refine (Run.bind_ok (checkCallable_of_isFunction callable _)).trans ?_
  refine (Run.bind_ok (Run.lift_ok attached)).trans ?_
  exact Run.bind_ok (Run.lift_ok read)

theorem installMetamethod_of_nil (empty : (m.slotValue (mt, name)).isNil = true)
    : installMetamethod object name replacement m
      = .error (.failed (.refused (.noMetamethod name))) m := by
  rw [installMetamethod_of_get callable attached found]
  simp only [empty, if_true]
  rfl

theorem installMetamethod_of_failure (filled : (m.slotValue (mt, name)).isNil = false)
    {fault : Fault} (failed : Vm.clone (m.slotValue (mt, name)) m = .error (.failed fault) m)
    : installMetamethod object name replacement m = .error (.failed (.fault fault)) m := by
  rw [installMetamethod_of_get callable attached found]
  simp only [filled, Bool.false_eq_true, if_false]
  exact Run.bind_error (Run.lift_error failed)

variable (filled : (m.slotValue (mt, name)).isNil = false) {copy : Option Value}
  (copied : Vm.clone (m.slotValue (mt, name)) m
    = .ok copy (m.duplicated (m.slotValue (mt, name))).2)
  (former : copy.getD (m.slotValue (mt, name)) = (m.duplicated (m.slotValue (mt, name))).1)
  (owned : m.heap.owns (m.slotValue (mt, name)) = true)
  (former_owned : m.heap.owns (m.duplicated (m.slotValue (mt, name))).1 = true)

include filled copied former owned former_owned

/-- Until its replacement is retained, hooking a slot gives up its former hook and retains what it
held before.
-/
theorem installMetamethod_eq
    : installMetamethod object name replacement m
      = (do
          let former := m.duplicated (m.slotValue (mt, name))
          let previous := former.2.previousTaken (mt, name) (m.slotValue (mt, name))
          let formerGuard := previous.2.hold former.1
          let replacementGuard ←
            Run.onHalt (Vm.hold replacement) (·.letGoAll [formerGuard.1, previous.1])
          let hook : MetamethodHook :=
            { previous := previous.1, former := formerGuard.1, replacement := replacementGuard }
          Run.onHalt (writeUnprotected mt (.string name) replacement)
            (·.letGoAll hook.guards)
          modify fun m => { m with hooks := m.hooks.insertMetamethod (mt, name) hook }
          return former.1 : Action Value)
          (((m.duplicated (m.slotValue (mt, name))).2.previousTaken (mt, name)
            (m.slotValue (mt, name))).2.hold (m.duplicated (m.slotValue (mt, name))).1).2 := by
  rw [installMetamethod_of_get callable attached found]
  simp only [filled, Bool.false_eq_true, if_false]
  refine (Run.bind_ok (Run.lift_ok copied)).trans ?_
  rw [former]
  refine (Run.bind_ok (takePrevious_eq ?_)).trans ?_
  · rw [Heap.owns_congr (m.id_duplicated _), owned]
  refine Run.bind_ok (Run.onHalt_ok (Run.lift_ok (Vm.hold_of_owns ?_)))
  rw [Heap.owns_congr ((Machine.id_previousTaken ..).trans (m.id_duplicated _)), former_owned]

theorem installMetamethod_of_owns (replacement_owned : m.heap.owns replacement = true)
    : installMetamethod object name replacement m
      = .ok (m.duplicated (m.slotValue (mt, name))).1 (m.slotHooked (mt, name) replacement) := by
  rw [installMetamethod_eq callable attached found filled copied former owned former_owned]
  have same
      : ((m.duplicated (m.slotValue (mt, name))).2.previousTaken (mt, name)
          (m.slotValue (mt, name))).2.heap.id = m.heap.id :=
    (Machine.id_previousTaken ..).trans (m.id_duplicated _)
  have replacement_owned := (Heap.owns_congr same replacement).trans replacement_owned
  have still
      : ((m.duplicated (m.slotValue (mt, name))).2.previousTaken (mt, name)
          (m.slotValue (mt, name))).2.heap.tables.get mt.handle = .ok t := by
    rw [Machine.tables_previousTaken, Machine.tables_duplicated, found]
  refine (Run.bind_ok (Run.onHalt_ok (Run.lift_ok (Vm.hold_of_owns ?_)))).trans ?_
  · exact replacement_owned
  refine (Run.bind_ok (Run.onHalt_ok (Run.lift_ok
    (writeUnprotected_of_get (t := t) ?_ ?_)))).trans ?_
  · exact still
  · exact replacement_owned
  · rfl

theorem installMetamethod_of_foreign (foreign : m.heap.owns replacement = false)
    : installMetamethod object name replacement m
      = .error (.failed (.fault .foreignHandle)) (m.slotAbandoned (mt, name)) := by
  rw [installMetamethod_eq callable attached found filled copied former owned former_owned]
  have same
      : ((m.duplicated (m.slotValue (mt, name))).2.previousTaken (mt, name)
          (m.slotValue (mt, name))).2.heap.id = m.heap.id :=
    (Machine.id_previousTaken ..).trans (m.id_duplicated _)
  have foreign := (Heap.owns_congr same replacement).trans foreign
  exact Run.bind_error (Run.onHalt_error (Run.lift_error (Vm.hold_of_foreign foreign)))

end Attached

/-- Hooking a slot with a function of the heap succeeds, with one of another heap it fails, and in
all other cases nothing happens.
-/
theorem installMetamethod_cases (minted : m.heap.Minted) (object : Value) (name : String)
    (replacement : Value)
    : (∃ mt t, Vm.metatable object m = .ok (some mt) m ∧ m.heap.tables.get mt.handle = .ok t
          ∧ m.heap.owns (m.slotValue (mt, name)) = true
          ∧ m.CopyOf (m.slotHooked (mt, name) replacement) (m.slotValue (mt, name))
            (m.duplicated (m.slotValue (mt, name))).1
          ∧ installMetamethod object name replacement m
            = .ok (m.duplicated (m.slotValue (mt, name))).1 (m.slotHooked (mt, name) replacement))
      ∨ (∃ mt, Vm.metatable object m = .ok (some mt) m ∧ m.heap.owns replacement = false
          ∧ installMetamethod object name replacement m
            = .error (.failed (.fault .foreignHandle)) (m.slotAbandoned (mt, name)))
      ∨ ∃ failure, installMetamethod object name replacement m = .error (.failed failure) m := by
  by_cases callable : replacement.isFunction = true
  · have checked := checkCallable_of_isFunction (m := m) callable "metamethod replacement"
    rcases metatable_cases m object with ⟨_ | mt, attached⟩ | ⟨fault, failed⟩
    · refine .inr (.inr ⟨.refused (.noMetatable object.kind), ?_⟩)
      exact (Run.bind_ok checked).trans (Run.bind_ok (Run.lift_ok attached))
    · cases found : m.heap.tables.get mt.handle with
      | error miss =>
          have missed : Vm.rawGet mt (.string name) m = .error (.failed (.ofMiss miss)) m :=
            Run.bind_error (Vm.table_of_miss found)
          refine .inr (.inr ⟨.fault (.ofMiss miss), (Run.bind_ok checked).trans ?_⟩)
          exact (Run.bind_ok (Run.lift_ok attached)).trans (Run.bind_error (Run.lift_error missed))
      | ok t =>
          cases filled : (m.slotValue (mt, name)).isNil with
          | true => exact .inr (.inr ⟨_, installMetamethod_of_nil callable attached found filled⟩)
          | false =>
              rcases Vm.clone_cases minted (m.slotValue (mt, name)) with
                ⟨copy, copied, former, owned, former_owned, same⟩ | ⟨fault, failed⟩
              · cases replacement_owned : m.heap.owns replacement with
                | true =>
                    refine .inl ⟨mt, t, attached, found, owned, ?_, ?_⟩
                    · exact same.of_heap (m.closures_slotHooked ..) (m.natives_slotHooked ..)
                    · exact installMetamethod_of_owns callable attached found filled copied former
                        owned former_owned replacement_owned
                | false =>
                    refine .inr (.inl ⟨mt, attached, rfl, ?_⟩)
                    exact installMetamethod_of_foreign callable attached found filled copied former
                      owned former_owned replacement_owned
              · exact .inr (.inr ⟨_,
                  installMetamethod_of_failure callable attached found filled failed⟩)
    · refine .inr (.inr ⟨.fault fault, ?_⟩)
      exact (Run.bind_ok checked).trans (Run.bind_error (Run.lift_error failed))
  · have refused
        : checkCallable replacement "metamethod replacement" m
          = .error (.failed (.refused (.needs "metamethod replacement" .function
              replacement.kind))) m := by
      rw [checkCallable, if_neg callable]
      rfl
    exact .inr (.inr ⟨_, Run.bind_error refused⟩)

/-- What hooking a slot leaves when it succeeds. -/
theorem eq_of_installMetamethod {former : Value} {after : Machine} (minted : m.heap.Minted)
    (ran : installMetamethod object name replacement m = .ok former after)
    : ∃ mt t, Vm.metatable object m = .ok (some mt) m ∧ m.heap.tables.get mt.handle = .ok t
        ∧ m.heap.owns (m.slotValue (mt, name)) = true
        ∧ m.CopyOf after (m.slotValue (mt, name)) former
        ∧ after = m.slotHooked (mt, name) replacement := by
  rcases installMetamethod_cases minted object name replacement with
    ⟨mt, t, attached, found, owned, copy, hooked⟩ | ⟨_, _, _, failed⟩ | ⟨_, failed⟩
  · obtain ⟨rfl, rfl⟩ := EStateM.Result.ok.inj (ran.symm.trans hooked)
    exact ⟨mt, t, attached, found, owned, copy, rfl⟩
  · cases ran.symm.trans failed
  · cases ran.symm.trans failed

/-- Unhooking a slot whose table exists succeeds if its former value belongs to the heap. -/
theorem restoreMetamethod_of_get {hook : MetamethodHook}
    (attached : Vm.metatable object m = .ok (some mt) m)
    (entry : m.hooks.metamethod? (mt, name) = some hook)
    (found : m.heap.tables.get mt.handle = .ok t) (owned : m.heap.owns hook.previous.value = true)
    : restoreMetamethod object name m = .ok true (m.slotUnhooked (mt, name) hook) := by
  refine (Run.bind_ok (Run.lift_ok attached)).trans ((Run.bind_get ..).trans ?_)
  simp only [entry]
  refine (Run.bind_ok rfl).trans ?_
  refine (Run.bind_ok (Run.onHalt_ok (Run.lift_ok
    (writeUnprotected_of_get (t := t) ?_ ?_)))).trans ?_
  · exact found
  · exact owned
  · rfl

/-- Unhooking a slot that cannot be written gives up its hook all the same. -/
theorem restoreMetamethod_of_failure {hook : MetamethodHook} {fault : Fault} {left : Machine}
    (attached : Vm.metatable object m = .ok (some mt) m)
    (entry : m.hooks.metamethod? (mt, name) = some hook)
    (failed : writeUnprotected mt (.string name) hook.previous.value
        { m with hooks := m.hooks.eraseMetamethod (mt, name) }
      = .error (.failed fault) left)
    : restoreMetamethod object name m
      = .error (.failed (.fault fault)) (left.letGoAll hook.guards) := by
  refine (Run.bind_ok (Run.lift_ok attached)).trans ((Run.bind_get ..).trans ?_)
  simp only [entry]
  refine (Run.bind_ok rfl).trans ?_
  exact Run.bind_error (Run.onHalt_error (Run.lift_error failed))

/-- Unhooking a slot without a hook changes nothing. -/
theorem restoreMetamethod_of_none (attached : Vm.metatable object m = .ok (some mt) m)
    (entry : m.hooks.metamethod? (mt, name) = none)
    : restoreMetamethod object name m = .ok false m := by
  refine (Run.bind_ok (Run.lift_ok attached)).trans ((Run.bind_get ..).trans ?_)
  simp only [entry]
  rfl

/-- What unhooking a slot leaves when it succeeds. -/
theorem eq_of_restoreMetamethod {answer : Bool} {after : Machine}
    (ran : restoreMetamethod object name m = .ok answer after)
    : (answer = false ∧ after = m
          ∧ ∀ mt, Vm.metatable object m = .ok (some mt) m → m.hooks.metamethod? (mt, name) = none)
      ∨ ∃ mt t hook, answer = true ∧ Vm.metatable object m = .ok (some mt) m
          ∧ m.heap.tables.get mt.handle = .ok t
          ∧ m.hooks.metamethod? (mt, name) = some hook
          ∧ after = m.slotUnhooked (mt, name) hook := by
  rcases metatable_cases m object with ⟨_ | mt, attached⟩ | ⟨fault, failed⟩
  · have missed : restoreMetamethod object name m = .ok false m :=
      Run.bind_ok (Run.lift_ok attached)
    obtain ⟨rfl, rfl⟩ := EStateM.Result.ok.inj (ran.symm.trans missed)
    refine .inl ⟨rfl, rfl, fun mt there => ?_⟩
    cases attached.symm.trans there
  · cases entry : m.hooks.metamethod? (mt, name) with
    | none =>
        have missed := restoreMetamethod_of_none attached entry
        obtain ⟨rfl, rfl⟩ := EStateM.Result.ok.inj (ran.symm.trans missed)
        refine .inl ⟨rfl, rfl, fun other there => ?_⟩
        cases attached.symm.trans there
        exact entry
    | some hook =>
        let erased : Machine := { m with hooks := m.hooks.eraseMetamethod (mt, name) }
        have fails {fault : Fault} {left : Machine}
            (failed : writeUnprotected mt (.string name) hook.previous.value erased
              = .error (.failed fault) left)
            : False := by
          cases ran.symm.trans (restoreMetamethod_of_failure attached entry failed)
        cases found : m.heap.tables.get mt.handle with
        | error miss =>
            have missed : erased.heap.tables.get mt.handle = .error miss := found
            exact (fails (writeUnprotected_of_miss missed)).elim
        | ok t =>
            cases owned : m.heap.owns hook.previous.value with
            | true =>
                have restored := restoreMetamethod_of_get attached entry found owned
                obtain ⟨rfl, rfl⟩ := EStateM.Result.ok.inj (ran.symm.trans restored)
                exact .inr ⟨mt, t, hook, rfl, attached, found, entry, rfl⟩
            | false =>
                have there : erased.heap.tables.get mt.handle = .ok t := found
                exact (fails (writeUnprotected_of_foreign there owned)).elim
  · cases ran.symm.trans (Run.bind_error (Run.lift_error failed))

end Hook
end HookMachine
