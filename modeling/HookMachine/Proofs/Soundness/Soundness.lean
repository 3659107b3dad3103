import HookMachine.Proofs.Collection.Exactness
import HookMachine.Proofs.Hook.Trace
import HookMachine.Proofs.Soundness.Behaviour
import HookMachine.Proofs.Soundness.Ledger
import HookMachine.Proofs.Table.Alteration

/-!
The invariant of a machine that runs by the rules, and what code may do to a machine that has
it. All that live objects, retained values and cells of live closures hold is valid, natives
keep the rules, and registries own the slots of their guards.
-/

namespace HookMachine

/-- The guards that the registries of a machine hold. -/
def Machine.registered (m : Machine) : List Guard :=
  m.environments.guards ++ m.hooks.guards ++ ConnectionRegistry.guards m.connections

namespace Rules

variable (rules : Rules)

/-- A table between collections that refers to valid values. -/
structure SoundTable (m : Machine) (t : Table) : Prop where
  plain : t.marked = false
  references : ∀ value ∈ t.references, rules.Valid m value

/-- A closure between collections that refers to valid values. -/
structure SoundClosure (m : Machine) (c : Closure) : Prop where
  plain : c.marked = false
  prototype : rules.ValidPrototype m c.prototype
  environment : rules.Valid m (.table c.environment)
  upvalues : ∀ cell ∈ c.upvalues, rules.ValidCell m cell
  redirect : ∀ value, c.redirect = some value → rules.Valid m value

/-- A native between collections that keeps the rules and keeps alive valid values. -/
structure SoundNative (m : Machine) (n : Native) : Prop where
  plain : n.marked = false
  bound : ∀ value ∈ n.bound, rules.Valid m value
  conforms : rules.Conforms n

/-- The state of a machine that runs by the rules, where the guards `own` are out besides those
of the registries.
-/
structure Sound (own : List Guard) (m : Machine) : Prop where
  tables {handle t} : m.heap.tables.get handle = .ok t → rules.SoundTable m t
  closures {handle c} : m.heap.closures.get handle = .ok c → rules.SoundClosure m c
  natives {handle n} : m.heap.natives.get handle = .ok n → rules.SoundNative m n
  retained {slot value} : m.heap.retained.get slot = .ok value → rules.Valid m value
  globals : m.heap.isLive (.table m.globals) = true
  minted : m.heap.Minted
  ledger : Ledger m.heap.retained (own ++ m.registered)
  /-- The hook of a closure keeps that closure alive. -/
  targets : ∀ entry ∈ m.hooks.functions,
    entry.2.target.value = .closure entry.1 ∧ m.heap.isLive (.closure entry.1) = true
  /-- No closure has two hooks. -/
  single : (m.hooks.functions.map Prod.fst).Nodup

/-- What an operation does to a machine: it leaves a sound one, where the guards `left` are out,
and what was valid stays valid.
-/
structure Kept (m : Machine) (left : List Guard) (after : Machine) : Prop where
  sound : rules.Sound left after
  later : rules.Later m after
  active : after.activeCalls = m.activeCalls
  /-- All that happened to tables. -/
  altered : m.Altered after
  /-- Natives stay what they are. -/
  natives {handle n} : m.heap.natives.get handle = .ok n → after.heap.natives.get handle = .ok n

/-- What running code does to a machine besides: the hooks that change do so by operations on
hooks.
-/
structure Passed (m : Machine) (left : List Guard) (after : Machine) : Prop
    extends rules.Kept m left after where
  trace : ¬rules.redirects → ∃ events, m.Trace events after

end Rules

variable {rules : Rules} {own left : List Guard} {m middle after : Machine}

namespace Rules

-----------------------------------------------------------------------------------------
-- Sound objects stay sound
-----------------------------------------------------------------------------------------

theorem SoundTable.later {t : Table} (sound : rules.SoundTable m t)
    (later : rules.Later m after)
    : rules.SoundTable after t :=
  ⟨sound.plain, later.all sound.references⟩

theorem SoundClosure.later {c : Closure} (sound : rules.SoundClosure m c)
    (later : rules.Later m after)
    : rules.SoundClosure after c where
  plain := sound.plain
  prototype := later.prototype sound.prototype
  environment := later.valid sound.environment
  upvalues cell member := later.cell (sound.upvalues cell member)
  redirect value redirected := later.valid (sound.redirect value redirected)

theorem SoundNative.later {n : Native} (sound : rules.SoundNative m n)
    (later : rules.Later m after)
    : rules.SoundNative after n :=
  ⟨sound.plain, later.all sound.bound, sound.conforms⟩

namespace Sound

/-- A machine is sound after a sound one if what is in its heap was there before or is sound,
and its registries are in order.
-/
theorem grow (sound : rules.Sound own m) (later : rules.Later m after)
    (tables : ∀ handle t, after.heap.tables.get handle = .ok t
      → m.heap.tables.get handle = .ok t ∨ rules.SoundTable after t)
    (closures : ∀ handle c, after.heap.closures.get handle = .ok c
      → m.heap.closures.get handle = .ok c ∨ rules.SoundClosure after c)
    (natives : ∀ handle n, after.heap.natives.get handle = .ok n
      → m.heap.natives.get handle = .ok n ∨ rules.SoundNative after n)
    (retained : ∀ slot value, after.heap.retained.get slot = .ok value
      → m.heap.retained.get slot = .ok value ∨ rules.Valid after value)
    (globals : after.globals = m.globals)
    (minted : after.heap.Minted)
    (ledger : Ledger after.heap.retained (left ++ after.registered))
    (targets : ∀ entry ∈ after.hooks.functions, entry ∈ m.hooks.functions
      ∨ entry.2.target.value = .closure entry.1 ∧ m.heap.isLive (.closure entry.1) = true)
    (single : (after.hooks.functions.map Prod.fst).Nodup)
    : rules.Sound left after where
  tables {handle t} found :=
    (tables handle t found).elim (fun old => (sound.tables old).later later) id
  closures {handle c} found :=
    (closures handle c found).elim (fun old => (sound.closures old).later later) id
  natives {handle n} found :=
    (natives handle n found).elim (fun old => (sound.natives old).later later) id
  retained {slot value} found :=
    (retained slot value found).elim (fun old => later.valid (sound.retained old)) id
  globals := globals ▸ later.live sound.globals
  minted := minted
  ledger := ledger
  targets entry member := by
    have known := (targets entry member).elim (sound.targets entry) id
    exact ⟨known.1, later.live known.2⟩
  single := single

/-- One may forget of guards that one owns. -/
theorem forget (sound : rules.Sound own m) (within : left.Subperm own) : rules.Sound left m :=
  { sound with ledger := sound.ledger.subperm ((List.subperm_append_right _).mpr within) }

theorem globals_valid (sound : rules.Sound own m) : rules.Valid m (.table m.globals) :=
  .of_live rfl sound.globals

theorem unmarked (sound : rules.Sound own m) : m.heap.Unmarked :=
  Heap.unmarked_iff.mpr
    ⟨fun _ _ found => (sound.tables found).plain, fun _ _ found => (sound.closures found).plain,
      fun _ _ found => (sound.natives found).plain⟩

/-- The value of a guard that a registry holds is valid. -/
theorem registered (sound : rules.Sound own m) {guard : Guard} (member : guard ∈ m.registered)
    : rules.Valid m guard.value :=
  sound.retained (sound.ledger.held guard (List.mem_append_right _ member))

/-- A valid value belongs to the heap. -/
theorem owns (sound : rules.Sound own m) {value : Value} (valid : rules.Valid m value)
    (careful : rules.careful)
    : m.heap.owns value = true := by
  obtain ⟨_, _, _⟩ := sound.minted
  have live := valid careful
  cases value <;> simp only [Heap.owns, Value.handle?, decide_eq_true_eq]
  all_goals
    obtain ⟨_, found⟩ := Arena.contains_iff.mp (live _ rfl)
    exact (Arena.heap_of_get found).trans ‹_›

end Sound

theorem Kept.trans {right : List Guard} (first : rules.Kept m left middle)
    (second : rules.Kept middle right after)
    : rules.Kept m right after :=
  ⟨second.sound, first.later.trans second.later, second.active.trans first.active,
    first.altered.trans second.altered, fun found => second.natives (first.natives found)⟩

namespace Passed

theorem refl (sound : rules.Sound own m) : rules.Passed m own m :=
  ⟨⟨sound, .refl m, rfl, .refl, id⟩, fun _ => ⟨[], .start m⟩⟩

theorem trans {right : List Guard} (first : rules.Passed m left middle)
    (second : rules.Passed middle right after)
    : rules.Passed m right after := by
  refine ⟨first.toKept.trans second.toKept, fun apart => ?_⟩
  obtain ⟨events, run⟩ := first.trace apart
  obtain ⟨more, rest⟩ := second.trace apart
  exact ⟨more ++ events, run.trans rest⟩

/-- One may forget of guards that are left out. -/
theorem forget {fewer : List Guard} (passed : rules.Passed m left after)
    (within : fewer.Subperm left)
    : rules.Passed m fewer after :=
  { passed with sound := passed.sound.forget within }

end Passed
end Rules
end HookMachine
