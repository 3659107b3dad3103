import HookMachine.Proofs.Soundness.Soundness

/-!
The changes that operations make to a machine, one at a time. Each keeps a machine sound; the
changes of registries hand guards over to them or take them back.
-/

namespace HookMachine.Rules.Sound

variable {rules : Rules} {own left : List Guard} {m after : Machine}

-----------------------------------------------------------------------------------------
-- Counters
-----------------------------------------------------------------------------------------

/-- A machine is as sound as another with the same heap, cells, prototypes and registries. -/
theorem of_eq (sound : rules.Sound own m) (heap : after.heap = m.heap)
    (cells : after.cells = m.cells) (prototypes : after.prototypes = m.prototypes)
    (globals : after.globals = m.globals) (environments : after.environments = m.environments)
    (hooks : after.hooks = m.hooks) (connections : after.connections = m.connections)
    : rules.Sound own after := by
  have later : rules.Later m after :=
    .of_objects (by rw [heap]) (by rw [heap]) (by rw [heap]) cells prototypes
  have registered : after.registered = m.registered := by
    simp only [Machine.registered, environments, hooks, connections]
  refine sound.grow later ?_ ?_ ?_ ?_ globals ?_ ?_ ?_ ?_
  · exact fun _ _ found => .inl (heap ▸ found)
  · exact fun _ _ found => .inl (heap ▸ found)
  · exact fun _ _ found => .inl (heap ▸ found)
  · exact fun _ _ found => .inl (heap ▸ found)
  · exact heap ▸ sound.minted
  · rw [heap, registered]
    exact sound.ledger
  · exact fun entry member => .inl (hooks ▸ member)
  · exact hooks ▸ sound.single

/-- What no object, cell, prototype or registry shows may change freely. -/
theorem aside (sound : rules.Sound own m) (heap : after.heap = m.heap)
    (cells : after.cells = m.cells) (prototypes : after.prototypes = m.prototypes)
    (globals : after.globals = m.globals) (environments : after.environments = m.environments)
    (hooks : after.hooks = m.hooks) (connections : after.connections = m.connections)
    (active : after.activeCalls = m.activeCalls)
    : rules.Passed m own after where
  sound := sound.of_eq heap cells prototypes globals environments hooks connections
  later := .of_objects (by rw [heap]) (by rw [heap]) (by rw [heap]) cells prototypes
  active := active
  altered := .aside (by rw [heap]) (by rw [heap])
  natives found := heap ▸ found
  trace _ := Machine.Quiet.trace (.of_eq (by rw [heap]) (by rw [hooks]))

-----------------------------------------------------------------------------------------
-- Objects
-----------------------------------------------------------------------------------------

theorem insertTable (sound : rules.Sound own m)
    : rules.Passed m own { m with heap.tables := (m.heap.tables.insert {}).2 } := by
  have later : rules.Later m { m with heap.tables := (m.heap.tables.insert {}).2 } :=
    .of_stay (fun _ other found => ⟨other, Arena.get_insert_of_get {} found⟩)
      (fun _ c found => ⟨c.redirect, found⟩) (fun _ n found => ⟨n, found⟩) rfl rfl
  refine ⟨⟨?_, later, rfl, .single .created, id⟩, fun _ => Machine.Quiet.trace (.of_eq rfl rfl)⟩
  refine sound.grow later (fun handle other found => ?_) (fun _ _ => .inl) (fun _ _ => .inl)
    (fun _ _ => .inl) rfl ?_ sound.ledger (fun _ => .inl) sound.single
  · rcases Arena.get_insert.mp found with ⟨_, rfl⟩ | found
    · exact .inr ⟨rfl, by simp [Table.references]⟩
    · exact .inl found
  · exact { sound.minted with tables := (Arena.heap_insert ..).trans sound.minted.tables }

theorem insertClosure (sound : rules.Sound own m) {c : Closure}
    (good : rules.SoundClosure m c) (direct : c.redirect = none)
    : rules.Passed m own { m with heap.closures := (m.heap.closures.insert c).2 } := by
  have later : rules.Later m { m with heap.closures := (m.heap.closures.insert c).2 } :=
    .of_stay (fun _ t found => ⟨t, found⟩)
      (fun _ other found => ⟨other.redirect, Arena.get_insert_of_get c found⟩)
      (fun _ n found => ⟨n, found⟩) rfl rfl
  refine ⟨⟨?_, later, rfl, .aside rfl rfl, id⟩, fun _ => Machine.Quiet.trace ⟨rfl, ?_, fun found => ?_⟩⟩
  · refine sound.grow later (fun _ _ => .inl) (fun handle other found => ?_) (fun _ _ => .inl)
      (fun _ _ => .inl) rfl ?_ sound.ledger (fun _ => .inl) sound.single
    · rcases Arena.get_insert.mp found with ⟨_, rfl⟩ | found
      · exact .inr (good.later later)
      · exact .inl found
    · exact { sound.minted with closures := (Arena.heap_insert ..).trans sound.minted.closures }
  · exact Arena.get_insert_of_get c
  · rcases Arena.get_insert.mp found with ⟨_, rfl⟩ | found
    · exact .inr direct
    · exact .inl found

theorem insertNative (sound : rules.Sound own m) {n : Native} (good : rules.SoundNative m n)
    : rules.Passed m own { m with heap.natives := (m.heap.natives.insert n).2 } := by
  have later : rules.Later m { m with heap.natives := (m.heap.natives.insert n).2 } :=
    .of_stay (fun _ t found => ⟨t, found⟩) (fun _ c found => ⟨c.redirect, found⟩)
      (fun _ other found => ⟨other, Arena.get_insert_of_get n found⟩) rfl rfl
  refine ⟨⟨?_, later, rfl, .aside rfl rfl, Arena.get_insert_of_get n⟩,
    fun _ => Machine.Quiet.trace (.of_eq rfl rfl)⟩
  refine sound.grow later (fun _ _ => .inl) (fun _ _ => .inl) (fun handle other found => ?_)
    (fun _ _ => .inl) rfl ?_ sound.ledger (fun _ => .inl) sound.single
  · rcases Arena.get_insert.mp found with ⟨_, rfl⟩ | found
    · exact .inr (good.later later)
    · exact .inl found
  · exact { sound.minted with natives := (Arena.heap_insert ..).trans sound.minted.natives }

/-- A table may change to one that is sound. -/
theorem modifyTable (sound : rules.Sound own m) {handle : Handle} {change : Table → Table}
    (alters : m.Alters { m with heap.tables := m.heap.tables.modify handle change })
    (good : ∀ t, m.heap.tables.get handle = .ok t → rules.SoundTable m (change t))
    : rules.Passed m own { m with heap.tables := m.heap.tables.modify handle change } := by
  have later : rules.Later m { m with heap.tables := m.heap.tables.modify handle change } :=
    .of_stay (fun _ t found => ⟨_, Arena.get_modify.mpr ⟨t, found, rfl⟩⟩)
      (fun _ c found => ⟨c.redirect, found⟩) (fun _ n found => ⟨n, found⟩) rfl rfl
  refine ⟨⟨?_, later, rfl, .single alters, id⟩, fun _ => Machine.Quiet.trace (.of_eq rfl rfl)⟩
  refine sound.grow later (fun other t found => ?_) (fun _ _ => .inl) (fun _ _ => .inl)
    (fun _ _ => .inl) rfl ?_ sound.ledger (fun _ => .inl) sound.single
  · obtain ⟨before, held, rfl⟩ := Arena.get_modify.mp found
    split
    · rename_i same
      exact .inr ((good before (same ▸ held)).later later)
    · exact .inl held
  · exact { sound.minted with tables := (Arena.heap_modify ..).trans sound.minted.tables }

-----------------------------------------------------------------------------------------
-- Cells and prototypes
-----------------------------------------------------------------------------------------

/-- Cells may change to hold valid values. -/
theorem changeCells (sound : rules.Sound own m) (cells : Array Value)
    (good : ∀ cell, rules.ValidCell m cell → rules.Valid m (cells.getD cell.index .nil))
    : rules.Passed m own { m with cells } := by
  have later : rules.Later m { m with cells } :=
    ⟨id, fun {_ c} found => ⟨c.redirect, found⟩, good _, fun valid => ⟨valid.bound, valid.references⟩⟩
  refine ⟨⟨?_, later, rfl, .aside rfl rfl, id⟩, fun _ => Machine.Quiet.trace (.of_eq rfl rfl)⟩
  exact sound.grow later (fun _ _ => .inl) (fun _ _ => .inl) (fun _ _ => .inl) (fun _ _ => .inl)
    rfl { sound.minted with } sound.ledger (fun _ => .inl) sound.single

/-- Prototypes may change so that valid ones stay valid. -/
theorem changePrototypes (sound : rules.Sound own m) (prototypes : PrototypeStore)
    (good : ∀ ref, rules.ValidPrototype m ref → rules.ValidPrototype { m with prototypes } ref)
    : rules.Passed m own { m with prototypes } := by
  have later : rules.Later m { m with prototypes } := ⟨id, fun {_ c} found => ⟨c.redirect, found⟩, id, good _⟩
  refine ⟨⟨?_, later, rfl, .aside rfl rfl, id⟩, fun _ => Machine.Quiet.trace (.of_eq rfl rfl)⟩
  exact sound.grow later (fun _ _ => .inl) (fun _ _ => .inl) (fun _ _ => .inl) (fun _ _ => .inl)
    rfl { sound.minted with } sound.ledger (fun _ => .inl) sound.single

-----------------------------------------------------------------------------------------
-- Retained values
-----------------------------------------------------------------------------------------

/-- Retaining a value makes its guard one of those that are out. -/
theorem insertRetained (sound : rules.Sound own m) {value : Value}
    (valid : rules.Valid m value)
    : rules.Passed m ({ slot := (m.heap.retained.insert value).1, value } :: own)
        { m with heap.retained := (m.heap.retained.insert value).2 } := by
  have later : rules.Later m { m with heap.retained := (m.heap.retained.insert value).2 } :=
    .of_objects rfl rfl rfl rfl rfl
  refine ⟨⟨?_, later, rfl, .aside rfl rfl, id⟩, fun _ => Machine.Quiet.trace (.of_eq rfl rfl)⟩
  refine sound.grow later (fun _ _ => .inl) (fun _ _ => .inl) (fun _ _ => .inl)
    (fun slot other found => ?_) rfl { sound.minted with } (sound.ledger.insert value) (fun _ => .inl)
    sound.single
  rcases Arena.get_insert.mp found with ⟨_, rfl⟩ | found
  · exact .inr (later.valid valid)
  · exact .inl found

/-- Giving back the slot of a guard takes it from those that are out. -/
theorem removeRetained {guard : Guard} (sound : rules.Sound (guard :: own) m)
    : rules.Passed m own
        { m with heap.retained := (m.heap.retained.remove guard.slot).2 } := by
  have later
      : rules.Later m { m with heap.retained := (m.heap.retained.remove guard.slot).2 } :=
    .of_objects rfl rfl rfl rfl rfl
  refine ⟨⟨?_, later, rfl, .aside rfl rfl, id⟩, fun _ => Machine.Quiet.trace (.of_eq rfl rfl)⟩
  exact sound.grow later (fun _ _ => .inl) (fun _ _ => .inl) (fun _ _ => .inl)
    (fun _ _ found => .inl (Arena.get_remove.mp found).2) rfl { sound.minted with } sound.ledger.remove
    (fun _ => .inl) sound.single

theorem hold (sound : rules.Sound own m) (value : Value) (valid : rules.Valid m value)
    : rules.Passed m ((m.hold value).1 :: own) (m.hold value).2 := by
  have held := sound.insertRetained valid
  exact held.trans (held.sound.aside rfl rfl rfl rfl rfl rfl rfl rfl)

theorem letGo {guard : Guard} (sound : rules.Sound (guard :: own) m)
    : rules.Passed m own (m.letGo guard) := by
  have removed := sound.removeRetained
  exact removed.trans (removed.sound.aside rfl rfl rfl rfl rfl rfl rfl rfl)

theorem letGoAll (guards : List Guard) (sound : rules.Sound (guards ++ own) m)
    : rules.Passed m own (m.letGoAll guards) := by
  induction guards generalizing m with
  | nil => exact .refl sound
  | cons guard guards ih =>
      have gone := sound.letGo
      exact gone.trans (ih gone.sound)

-----------------------------------------------------------------------------------------
-- Registries
-----------------------------------------------------------------------------------------

/-- Registries may exchange guards with those that are out, if the hooks of closures stay. -/
theorem changeRegistries (sound : rules.Sound own m) (environments : EnvironmentCache)
    (metamethods : List (MetamethodSlot × MetamethodHook)) (connections : ConnectionRegistry)
    (within : (left
        ++ { m with environments, hooks.metamethods := metamethods, connections }.registered).Subperm
      (own ++ m.registered))
    : rules.Passed m left
        { m with environments, hooks.metamethods := metamethods, connections } := by
  have later
      : rules.Later m { m with environments, hooks.metamethods := metamethods, connections } :=
    .of_objects rfl rfl rfl rfl rfl
  refine ⟨⟨?_, later, rfl, .aside rfl rfl, id⟩, fun _ => Machine.Quiet.trace (.of_eq rfl rfl)⟩
  exact sound.grow later (fun _ _ => .inl) (fun _ _ => .inl) (fun _ _ => .inl) (fun _ _ => .inl)
    rfl { sound.minted with } (sound.ledger.subperm within) (fun _ => .inl) sound.single

/-- A closure may be sent elsewhere while the hooks of closures exchange guards with those that
are out.
-/
theorem redirect (sound : rules.Sound own m) (ref : ClosureRef) {target : Option Value}
    (functions : List (ClosureRef × FunctionHook))
    (valid : ∀ value, target = some value → rules.Valid m value)
    (within : (left
        ++ { m with hooks.functions := functions }.registered).Subperm (own ++ m.registered))
    (targets : ∀ entry ∈ functions, entry ∈ m.hooks.functions
      ∨ entry.2.target.value = .closure entry.1 ∧ m.heap.isLive (.closure entry.1) = true)
    (single : (functions.map Prod.fst).Nodup)
    : rules.Kept m left
        { m with
          heap.closures := m.heap.closures.modify ref.handle fun c => { c with redirect := target }
          hooks.functions := functions } := by
  have later
      : rules.Later m
          { m with
            heap.closures :=
              m.heap.closures.modify ref.handle fun c => { c with redirect := target }
            hooks.functions := functions } := by
    refine .of_stay (fun _ t found => ⟨t, found⟩) (fun handle c found => ?_)
      (fun _ n found => ⟨n, found⟩) rfl rfl
    by_cases same : handle = ref.handle
    · exact ⟨target, Arena.get_modify.mpr ⟨c, found, by rw [if_pos same]⟩⟩
    · exact ⟨c.redirect, Arena.get_modify.mpr ⟨c, found, by rw [if_neg same]⟩⟩
  refine ⟨?_, later, rfl, .aside rfl rfl, id⟩
  refine sound.grow later (fun _ _ => .inl) (fun handle c found => ?_) (fun _ _ => .inl)
    (fun _ _ => .inl) rfl ?_ (sound.ledger.subperm within) targets single
  · obtain ⟨before, held, rfl⟩ := Arena.get_modify.mp found
    have good := (sound.closures held).later later
    split
    · exact .inr { good with redirect := fun value same => later.valid (valid value same) }
    · exact .inl held
  · exact { sound.minted with closures := (Arena.heap_modify ..).trans sound.minted.closures }

end HookMachine.Rules.Sound
