import HookMachine.Proofs.Soundness.Calls

/-!
The life of a runtime by the rules: it is created sound, and stays so when it is collected
between calls and when its registries are dropped. What a collection removes is what nothing
that stays refers to.
-/

namespace HookMachine

open Rules (Tracks Leads)

variable {rules : Rules} {own : List Guard} {m : Machine}

-----------------------------------------------------------------------------------------
-- Creation
-----------------------------------------------------------------------------------------

/-- A runtime with nothing but its root globals is sound. -/
theorem Machine.bare_sound (rules : Rules) (heap : Nat) (config : Config)
    : rules.Sound [] (bare heap config) := by
  have globals : (bare heap config).heap.tables.get (bare heap config).globals.handle = .ok {} :=
    Arena.get_insert_self (Heap.empty heap).tables {}
  have none {α : Type} {handle : Handle} {value : α} {holds : Prop}
      (held : (Arena.empty heap).get handle = .ok value)
      : holds :=
    absurd held (Arena.get_empty heap handle value)
  refine ⟨fun {handle t} held => ?_, none, none, none, ?_, ?_, ⟨.nil, ?_⟩, ?_, .nil⟩
  · have held : ((Heap.empty heap).tables.insert {}).2.get handle = .ok t := held
    rcases Arena.get_insert.mp held with ⟨_, rfl⟩ | held
    · exact ⟨rfl, by simp [Table.references]⟩
    · exact none held
  · exact Arena.contains_iff.mpr ⟨_, globals⟩
  · exact ⟨Arena.heap_insert (Heap.empty heap).tables {}, rfl, rfl⟩
  · simp [Machine.registered, bare, EnvironmentCache.guards, HookRegistry.guards,
      ConnectionRegistry.guards]
  · simp [bare]

theorem Script.register_leads (sound : rules.Sound own m) (functions : List ScriptFunction)
    : rules.Leads own (register functions) m fun _ _ => True := by
  induction functions generalizing m with
  | nil => exact .pure sound trivial
  | cons f rest ih =>
      have native : rules.SoundNative m { name := f.name, body := .script f } :=
        ⟨rfl, by simp, trivial⟩
      refine (Vm.newNative_leads sound native).bind fun native m₁ made native_valid => ?_
      refine .get ?_
      refine (Vm.rawSet_leads made.sound made.sound.globals_valid (Rules.valid_string _)
        native_valid).bind fun _ m₂ wrote _ => ?_
      exact ih wrote.sound

/-- A runtime is created sound. -/
theorem Machine.create_sound (rules : Rules) (heap : Nat) (config : Config)
    : rules.Sound [] (create heap config) := by
  have registered := Script.register_leads (bare_sound rules heap config) ScriptFunction.all
  unfold Machine.create
  unfold Leads Tracks at registered
  generalize Script.register ScriptFunction.all (bare heap config) = outcome at *
  rcases outcome with ⟨_, after⟩ | ⟨error | _, after⟩
  · exact registered.1.sound
  · exact registered.1.sound
  · exact registered.sound

-----------------------------------------------------------------------------------------
-- Collection
-----------------------------------------------------------------------------------------

namespace Heap

variable {heap : Heap} {around : Surroundings} {roots : List Value}

theorem id_collect (heap : Heap) (around : Surroundings) (roots : List Value)
    : (heap.collect around roots).2.id = heap.id := by
  have same := congrArg (fun heap => heap.id) (clearMarks_markAll around heap (heap.anchors roots))
  exact same

theorem minted_collect (minted : heap.Minted) : (heap.collect around roots).2.Minted := by
  have wiped := clearMarks_markAll around heap (heap.anchors roots)
  have tables := congrArg (fun heap => heap.tables.heap) wiped
  have closures := congrArg (fun heap => heap.closures.heap) wiped
  have natives := congrArg (fun heap => heap.natives.heap) wiped
  have id : (heap.markAll around (heap.anchors roots)).id = heap.id := id_collect heap around roots
  simp only [clearMarks, Arena.heap_map] at tables closures natives id
  refine ⟨?_, ?_, ?_⟩ <;> simp only [collect, sweep, clearMarks, Arena.heap_map, Arena.heap_retain]
  · rw [tables, id, minted.tables]
  · rw [closures, id, minted.closures]
  · rw [natives, id, minted.natives]

end Heap

/-- A collection between calls leaves a sound machine: what stays is reachable, and so is all that
it refers to.
-/
theorem Rules.Sound.collect (sound : rules.Sound own m) : rules.Sound own m.collect.2 := by
  unfold Machine.collect
  split
  · exact sound
  have unmarked := sound.unmarked
  let roots : List Value := [.table m.globals]
  let after : Machine := { m with heap := (m.heap.collect m.surroundings roots).2 }
  have stays {object : ObjectRef} (reached : m.heap.Reachable m.surroundings roots object)
      : after.heap.isLive object = true :=
    (Heap.isLive_collect_iff unmarked).mpr reached
  have follow {source : ObjectRef} {value : Value}
      (reached : m.heap.Reachable m.surroundings roots source)
      (edge : m.heap.Refers m.surroundings source value) (valid : rules.Valid m value)
      : rules.Valid after value :=
    fun careful object names => stays (.step reached edge names (valid careful object names))
  have keeps {slot : Handle} {value : Value} (held : m.heap.retained.get slot = .ok value)
      (valid : rules.Valid m value)
      : rules.Valid after value :=
    fun careful object names => stays (.retained held names (valid careful object names))
  have retained : after.heap.retained = m.heap.retained := Heap.retained_collect ..
  show rules.Sound own after
  constructor
  case tables =>
    intro handle t found
    obtain ⟨found, reached⟩ := (Heap.get_tables_collect unmarked).mp found
    obtain ⟨plain, references⟩ := sound.tables found
    refine ⟨plain, fun value member => follow reached ?_ (references value member)⟩
    exact Heap.mem_references.mp (by simpa [Heap.references, found, Except.toOption] using member)
  case closures =>
    intro handle c found
    obtain ⟨found, reached⟩ := (Heap.get_closures_collect unmarked).mp found
    obtain ⟨plain, prototype, environment, upvalues, redirect⟩ := sound.closures found
    refine ⟨plain, ⟨prototype.bound, fun value member => ?_⟩, ?_, fun cell member => ?_,
      fun value redirected => ?_⟩
    · refine follow reached ?_ (prototype.references value member)
      refine Heap.mem_references.mp ?_
      simp only [Heap.references, found, Except.toOption, Option.elim, Closure.references]
      exact List.mem_append_right _ member
    · exact follow reached (.environment found) environment
    · exact follow reached (.upvalue found member) (upvalues cell member)
    · exact follow reached (.redirect found redirected) (redirect value redirected)
  case natives =>
    intro handle n found
    obtain ⟨found, reached⟩ := (Heap.get_natives_collect unmarked).mp found
    obtain ⟨plain, bound, conforms⟩ := sound.natives found
    refine ⟨plain, fun value member => ?_, conforms⟩
    exact follow reached (.bound found member) (bound value member)
  case retained =>
    intro slot value held
    rw [retained] at held
    exact keeps held (sound.retained held)
  case globals =>
    exact stays (.root (List.mem_singleton_self _) rfl sound.globals)
  case minted => exact Heap.minted_collect sound.minted
  case ledger => exact retained ▸ sound.ledger
  case targets =>
    intro entry member
    obtain ⟨target, live⟩ := sound.targets entry member
    have listed : entry.2.target ∈ own ++ m.registered := by
      refine List.mem_append_right _ (List.mem_append_left _ (List.mem_append_right _ ?_))
      refine List.mem_append_left _ (List.mem_flatMap.mpr ⟨entry, member, ?_⟩)
      exact .head _
    have held := target ▸ sound.ledger.held _ listed
    exact ⟨target, stays (.retained held rfl live)⟩
  case single => exact sound.single

-----------------------------------------------------------------------------------------
-- Dropping
-----------------------------------------------------------------------------------------

/-- The machine without its registries, whose guards are still out. -/
def Machine.detached (m : Machine) : Machine :=
  { m with alive := false, environments := {}, hooks := {}, connections := #[] }

/-- Giving back guards has nothing to do with the registries. -/
theorem Machine.detached_letGoAll (m : Machine) (guards : List Guard)
    : (m.letGoAll guards).detached = m.detached.letGoAll guards := by
  induction guards generalizing m with
  | nil => rfl
  | cons guard guards ih => exact ih (m.letGo guard)

/-- Dropping the registries gives back all that they kept alive. -/
theorem Rules.Sound.drop (sound : rules.Sound own m) : rules.Kept m own m.drop := by
  have later : rules.Later m m.detached := .of_objects rfl rfl rfl rfl rfl
  have detached : rules.Sound (m.registered ++ own) m.detached := by
    refine sound.grow later (fun _ _ => .inl) (fun _ _ => .inl) (fun _ _ => .inl) (fun _ _ => .inl)
      rfl { sound.minted with } ?_ (by simp [Machine.detached]) .nil
    have empty : m.detached.registered = [] := by
      simp [Machine.registered, Machine.detached, EnvironmentCache.guards, HookRegistry.guards,
        ConnectionRegistry.guards]
    rw [empty, List.append_nil]
    exact sound.ledger.subperm List.perm_append_comm.subperm
  have dropped : m.drop = m.detached.letGoAll m.registered := m.detached_letGoAll m.registered
  rw [dropped]
  have kept : rules.Kept m (m.registered ++ own) m.detached := ⟨detached, later, rfl, .aside rfl rfl, id⟩
  exact kept.trans (detached.letGoAll m.registered).toKept

end HookMachine
