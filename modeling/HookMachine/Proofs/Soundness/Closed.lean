import HookMachine.Proofs.Soundness.Situations

/-!
Closed situations: every handle that is stored anywhere names an object that exists. They stay
closed under every step of hosts and natives that pass in valid values only, collections
included, whatever happened before. So no handle ever fails to resolve while code runs, and
unhooking a closure cannot fail halfway.
-/

namespace HookMachine

namespace Machine

/-- The object behind a value exists in the heap of the machine. -/
def Resolves (m : Machine) (value : Value) : Prop :=
  ∀ object, value.object? = some object → m.heap.isLive object = true

/-- All that objects refer to and all retained values resolve. -/
structure Closed (m : Machine) : Prop where
  edges {source value} : m.heap.Refers m.surroundings source value → m.Resolves value
  retained {slot value} : m.heap.retained.get slot = .ok value → m.Resolves value

/-- All that an activation holds resolves. -/
structure ClosedFrame (m : Machine) (frame : Frame) : Prop where
  registers : ∀ value ∈ frame.registers, m.Resolves value
  extra : ∀ value ∈ frame.extra, m.Resolves value
  captured : ∀ entry ∈ frame.captured, m.Resolves (m.cells.getD entry.2.index .nil)

end Machine

/-- The rules of those who pass in valid values only; natives raise no faults that blame a handle
but the given ones.
-/
def Rules.strict (raises : Fault → Prop) : Rules where
  careful := True
  redirects := True
  raises

/-- The rules of those who pass in any values and set redirects as they like. -/
def Rules.lax : Rules where
  careful := False
  redirects := True
  raises _ := True

/-- An operation does not fail with a fault that blames a handle, unless a native raised it. -/
def Run.Spares {ε α : Type} [FaultLike ε] (raises : Fault → Prop) (x : Run ε α) (m : Machine)
    : Prop :=
  ∀ error after, x m = .error (.failed error) after
    → (FaultLike.toFault error).blamesHandle = true → raises (FaultLike.toFault error)

namespace Situation

/-- A runtime as it is created. -/
def fresh (heap : Nat) (config : Config) : Situation where
  machine := .create heap config

/-- What a runtime can get into by whatever hosts, natives and code do to it. -/
def Reached (s : Situation) : Prop :=
  ∃ heap config, Rules.lax.Steps (fresh heap config) s

/-- All that a machine and its open activations hold resolves. -/
structure Closed (s : Situation) : Prop where
  machine : s.machine.Closed
  stack : ∀ layer ∈ s.stack, s.machine.ClosedFrame layer.frame

end Situation

variable {raises : Fault → Prop} {m : Machine} {own : List Guard} {s start : Situation}

instance (m : Machine) (value : Value) : Decidable (m.Resolves value) :=
  inferInstanceAs (Decidable (∀ object, value.object? = some object → m.heap.isLive object = true))

/-- Whether a machine is closed can be computed: the values that objects list are their edges. -/
theorem Machine.closed_iff
    : m.Closed
      ↔ (∀ object ∈ m.heap.allObjects, ∀ value ∈ m.heap.references m.surroundings object,
            m.Resolves value)
        ∧ ∀ entry ∈ m.heap.retained.toList, m.Resolves entry.2 := by
  constructor
  · intro closed
    exact ⟨fun _ _ _ listed => closed.edges (Heap.mem_references.mp listed),
      fun _ listed => closed.retained (Arena.mem_toList.mp listed)⟩
  · rintro ⟨edges, retained⟩
    refine ⟨fun edge => edges _ (Heap.mem_allObjects.mpr ?_) _ (Heap.mem_references.mpr edge),
      fun held => retained _ (Arena.mem_toList.mpr held)⟩
    cases edge <;> exact Arena.contains_iff.mpr ⟨_, ‹_›⟩

instance (m : Machine) : Decidable m.Closed :=
  decidable_of_iff' _ Machine.closed_iff

namespace Situation

theorem sound_fresh (rules : Rules) (heap : Nat) (config : Config)
    : rules.SoundSituation (fresh heap config) :=
  ⟨Machine.create_sound rules heap config, by simp [fresh, Rules.ValidStack], by simp [fresh]⟩

/-- Any number of steps lead from a sound situation to a sound one, by induction over them. -/
theorem sound_of_steps {rules : Rules} (sound : rules.SoundSituation start)
    (steps : rules.Steps start s)
    : rules.SoundSituation s := by
  induction steps with
  | refl => exact sound
  | tail _ step ih => exact ih.step step

theorem Reached.sound (reached : s.Reached) : Rules.lax.SoundSituation s := by
  obtain ⟨heap, config, steps⟩ := reached
  exact sound_of_steps (sound_fresh _ heap config) steps

end Situation

theorem Rules.Tracks.spares {ε α : Type} [FaultLike ε] {x : Run ε α} {left : α → List Guard}
    {lost : List Guard} {good : α → Machine → Prop}
    (tracked : (Rules.strict raises).Tracks x m left lost good)
    : Run.Spares raises x m :=
  fun _ _ ran => tracked.tolerated ran trivial

/-- Unhooking a closure in a sound machine does not fail, since its hook kept it alive. -/
theorem Hook.restore_succeeds {rules : Rules} (sound : rules.Sound own m) (target : Value)
    : ∃ after, restore target m = .ok (m.hooks.isHooked target) after := by
  cases target with
  | closure ref =>
      cases entry : m.hooks.function? ref with
      | none =>
          refine ⟨m, ?_⟩
          rw [restore_of_none entry, HookRegistry.isHooked, entry]
          rfl
      | some hook =>
          obtain ⟨_, live⟩ := sound.targets _ (HookRegistry.mem_of_function? entry)
          obtain ⟨c, found⟩ := Arena.contains_iff.mp live
          refine ⟨m.unhooked ref hook, ?_⟩
          rw [restore_of_get entry found, HookRegistry.isHooked, entry]
          rfl
  | _ => exact ⟨m, rfl⟩

-----------------------------------------------------------------------------------------
-- Runs of requests
-----------------------------------------------------------------------------------------

/-- Whether a request neither takes nor gives back slots, and makes no closure. -/
def Request.isModest : Request → Bool
  | instantiate .. | load .. | retain _ | release _ | hold _ | letGo _ => false
  | _ => true

theorem Request.keeps_of_isModest {request : Request} (modest : request.isModest = true)
    : request.prototypes = [] ∧ request.frees? = none
      ∧ ∀ (answer : request.Answer) mine, request.owned answer mine = mine := by
  cases request <;> first | exact ⟨rfl, rfl, fun _ _ => rfl⟩ | cases modest

/-- A machine after requests, however they end. -/
def Machine.served (m : Machine) (requests : List Request) : Machine :=
  requests.foldl (fun m request => (serve (Vm.call 0) request).leaves m) m

namespace Situation

theorem Reached.step (reached : s.Reached) {t : Situation} (step : Rules.lax.Step s t)
    : t.Reached := by
  obtain ⟨heap, config, steps⟩ := reached
  exact ⟨heap, config, steps.tail step⟩

/-- A host may make a request that gives back nothing and closes over prototypes that exist. -/
theorem Reached.request {stack : List Layer} {mine : List Guard} {request : Request}
    (reached : Reached ⟨m, stack, mine⟩)
    (prototypes : ∀ ref ∈ request.prototypes, ref.index < m.prototypes.prototypes.size)
    (frees : request.frees? = none)
    (keeps : ∀ (answer : request.Answer) mine, request.owned answer mine = mine)
    : Reached ⟨(serve (Vm.call 0) request).leaves m, stack, mine⟩ := by
  have permits : Rules.lax.Permits m mine request :=
    ⟨fun _ _ careful => careful.elim,
      fun ref member => ⟨prototypes ref member, fun _ _ careful => careful.elim⟩,
      fun _ _ _ => trivial, by simp [frees]⟩
  refine reached.step ?_
  rcases ran : serve (Vm.call 0) request m with ⟨answer, after⟩ | ⟨halt, after⟩
  · have answered := @Rules.Step.answered Rules.lax m stack mine request 0 answer after permits ran
    rw [keeps answer mine] at answered
    simpa only [Run.leaves, ran] using answered
  · have failed := @Rules.Step.failed Rules.lax m stack mine request 0 halt after permits ran
    simpa only [Run.leaves, ran] using failed

/-- A host may make any modest requests, by induction over them. -/
theorem Reached.served {stack : List Layer} {mine : List Guard} {requests : List Request}
    (modest : requests.all Request.isModest = true) (reached : Reached ⟨m, stack, mine⟩)
    : Reached ⟨m.served requests, stack, mine⟩ := by
  induction requests generalizing m with
  | nil => exact reached
  | cons request requests ih =>
      obtain ⟨first, rest⟩ := (Bool.and_eq_true ..).mp modest
      obtain ⟨prototypes, frees, keeps⟩ := Request.keeps_of_isModest first
      exact ih rest (reached.request (by simp [prototypes]) frees keeps)

end Situation
end HookMachine
