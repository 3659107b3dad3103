import HookMachine.Proofs.Soundness.Lifetime
import Mathlib.Logic.Relation

/-!
What may happen to a runtime, step by step: operations of the host, entries and their ends,
instructions of any activation, whole calls, requests of natives in the midst of them, and
attempts to collect at any time. Steps lead from sound situations to sound ones.
-/

namespace HookMachine

/-- The machine that an operation leaves, in whatever way it ends. -/
def Run.leaves {ε α : Type} (x : Run ε α) (m : Machine) : Machine :=
  match x m with
  | .ok _ after | .error _ after => after

/-- A machine in the midst of its work. -/
structure Situation where
  machine : Machine
  /-- All open activations, the innermost first. -/
  stack : List Layer := []
  /-- The slots that belong to the host and to natives. -/
  mine : List Guard := []

namespace Rules

variable (rules : Rules)

/-- One step by the rules that is no request. A call that code makes while an instruction executes
is a step like any other, as is each step within it: activations are opened on top of those
that wait.
-/
inductive Work : Situation → Situation → Prop
  /-- A native is made that keeps the rules. -/
  | created {m stack mine name body bound} (valid : ∀ value ∈ bound, rules.Valid m value)
    (behaves : rules.BehavesBound body bound)
    : Work ⟨m, stack, mine⟩
        ⟨(Vm.createNative { name, body := .host body, bound }).leaves m, stack, mine⟩
  | entered {m stack mine} : Work ⟨m, stack, mine⟩ ⟨m.enter, stack, mine⟩
  /-- When the last entry ends, no activation is open. -/
  | left {m stack mine} (steps : Nat) (closed : m.activeCalls = 1 → stack = [])
    : Work ⟨m, stack, mine⟩ ⟨m.leave steps, stack, mine⟩
  /-- Within an entry, a closure is called. -/
  | opened {m stack mine ref arguments depth frame after} (resume : Resume)
    (active : 0 < m.activeCalls) (valid : rules.Valid m (.closure ref))
    (arguments_valid : ∀ value ∈ arguments, rules.Valid m value)
    (ran : Vm.openFrame ref arguments depth m = .ok frame after)
    : Work ⟨m, stack, mine⟩ ⟨after, ⟨frame, resume⟩ :: stack, mine⟩
  /-- An instruction of the innermost activation executes. -/
  | advanced {m top callers outer mine fuel next others after}
    (ran : Vm.advance (Vm.call fuel) top callers m = .ok (.inr (next, others)) after)
    : Work ⟨m, top :: callers ++ outer, mine⟩ ⟨after, next :: others ++ outer, mine⟩
  | finished {m top callers outer mine fuel results after}
    (ran : Vm.advance (Vm.call fuel) top callers m = .ok (.inl results) after)
    : Work ⟨m, top :: callers ++ outer, mine⟩ ⟨after, outer, mine⟩
  | aborted {m top callers outer mine fuel halt after}
    (ran : Vm.advance (Vm.call fuel) top callers m = .error halt after)
    : Work ⟨m, top :: callers ++ outer, mine⟩ ⟨after, outer, mine⟩
  /-- Within an entry, a value is called, and the call runs to its end. -/
  | called {m stack mine f arguments caller} (fuel depth : Nat) (active : 0 < m.activeCalls)
    (valid : rules.Valid m f) (arguments_valid : ∀ value ∈ arguments, rules.Valid m value)
    (caller_valid : rules.ValidCaller m caller)
    : Work ⟨m, stack, mine⟩ ⟨(Vm.call fuel f arguments caller depth).leaves m, stack, mine⟩
  /-- The host turns to another execution context. -/
  | switched {m stack mine} (context : ContextRef)
    : Work ⟨m, stack, mine⟩ ⟨{ m with context }, stack, mine⟩
  /-- The prototypes that runtimes share change, and the valid ones stay valid. -/
  | shared {m stack mine} (prototypes : PrototypeStore)
    (good : ∀ ref, rules.ValidPrototype m ref → rules.ValidPrototype { m with prototypes } ref)
    : Work ⟨m, stack, mine⟩ ⟨{ m with prototypes }, stack, mine⟩
  /-- The registries are dropped, which leaves redirects as they are. -/
  | dropped {m stack mine} (allowed : rules.redirects)
    : Work ⟨m, stack, mine⟩ ⟨m.drop, stack, mine⟩

/-- One step by the rules: some work, or a request of the host or of a native that is called. -/
inductive Step : Situation → Situation → Prop
  | worked {s t} (work : rules.Work s t) : Step s t
  | answered {m stack mine request fuel answer after} (permits : rules.Permits m mine request)
    (ran : serve (Vm.call fuel) request m = .ok answer after)
    : Step ⟨m, stack, mine⟩ ⟨after, stack, request.owned answer mine⟩
  | failed {m stack mine request fuel halt after} (permits : rules.Permits m mine request)
    (ran : serve (Vm.call fuel) request m = .error halt after)
    : Step ⟨m, stack, mine⟩ ⟨after, stack, mine⟩

/-- Any number of steps by the rules. -/
abbrev Steps : Situation → Situation → Prop :=
  Relation.ReflTransGen rules.Step

/-- A situation with a sound machine and valid activations, which are open only within entries. -/
structure SoundSituation (s : Situation) : Prop where
  sound : rules.Sound s.mine s.machine
  stack : rules.ValidStack s.machine s.stack
  entered : s.stack ≠ [] → 0 < s.machine.activeCalls

end Rules

variable {rules : Rules} {own : List Guard} {m : Machine}

namespace Rules

/-- What an operation leaves is sound if the operation leads there. -/
theorem Leads.leaves {ε α : Type} [FaultLike ε] {x : Run ε α} {good : α → Machine → Prop}
    (led : rules.Leads own x m good)
    : rules.Passed m own (x.leaves m) := by
  unfold Run.leaves
  rcases ran : x m with ⟨a, after⟩ | ⟨halt, after⟩
  · exact (led.of_ok ran).1
  · exact led.of_error ran

namespace SoundSituation

variable {stack : List Layer} {mine left : List Guard} {after : Machine}

/-- What is valid stays so over operations during which nothing is collected. -/
theorem pass (sound : rules.SoundSituation ⟨m, stack, mine⟩) (kept : rules.Kept m left after)
    : rules.SoundSituation ⟨after, stack, left⟩ :=
  ⟨kept.sound, sound.stack.later kept.later, fun busy => kept.active ▸ sound.entered busy⟩

/-- A collection happens only when no activation is open. -/
theorem collect (sound : rules.SoundSituation ⟨m, stack, mine⟩)
    : rules.SoundSituation ⟨m.collect.2, stack, mine⟩ := by
  by_cases active : 0 < m.activeCalls
  · have busy : m.collect = (none, m) := if_pos active
    rwa [busy]
  · have closed : stack = [] := by
      by_contra busy
      exact active (sound.entered busy)
    subst closed
    exact ⟨sound.sound.collect, by simp [ValidStack], by simp⟩

/-- What an instruction of the innermost activations does to a situation. -/
theorem advance {top : Layer} {callers outer : List Layer} (fuel : Nat)
    (sound : rules.SoundSituation ⟨m, top :: callers ++ outer, mine⟩)
    : rules.Leads mine (Vm.advance (Vm.call fuel) top callers) m
        fun output after => rules.ValidOutput after output := by
  have inner := (List.forall_mem_append.mp sound.stack).1
  exact Vm.advance_leads (Vm.call_conducts fuel) sound.sound (sound.entered (by simp)) inner

/-- What is left of a situation when its innermost activations are gone. -/
theorem unwind {inner outer : List Layer} (sound : rules.SoundSituation ⟨m, inner ++ outer, mine⟩)
    (kept : rules.Kept m mine after)
    : rules.SoundSituation ⟨after, outer, mine⟩ := by
  obtain ⟨_, below⟩ := List.forall_mem_append.mp sound.stack
  refine ⟨kept.sound, ValidStack.later below kept.later, fun busy => ?_⟩
  exact kept.active ▸ sound.entered fun nothing => busy (List.append_eq_nil_iff.mp nothing).2

/-- What a request other than a collection does to a situation. -/
theorem serve {request : Request} (fuel : Nat) (sound : rules.SoundSituation ⟨m, stack, mine⟩)
    (collects : request ≠ .collect) (permits : rules.Permits m mine request)
    : rules.Tracks (HookMachine.serve (Vm.call fuel) request) m
        (fun answer => request.owned answer mine) mine
        fun answer after => rules.Answered after request answer := by
  have alone : rules.Sound (mine ++ []) m := (List.append_nil mine).symm ▸ sound.sound
  simpa only [List.append_nil] using
    serve_tracks (Vm.call_conducts fuel) alone (fun same => absurd same collects) permits

/-- Work leads from a sound situation to a sound one. -/
theorem work {s t : Situation} (sound : rules.SoundSituation s) (work : rules.Work s t)
    : rules.SoundSituation t := by
  cases work with
  | @created m stack mine name body bound valid behaves =>
      have native : rules.SoundNative m { name, body := .host body, bound } :=
        ⟨rfl, valid, behaves⟩
      exact sound.pass (Vm.createNative_leads sound.sound native).leaves.toKept
  | entered =>
      refine ⟨sound.sound.of_eq rfl rfl rfl rfl rfl rfl rfl, ?_, fun _ => Nat.succ_pos _⟩
      exact sound.stack.later (.of_objects rfl rfl rfl rfl rfl)
  | left steps closed =>
      refine ⟨sound.sound.of_eq rfl rfl rfl rfl rfl rfl rfl, ?_, fun busy => ?_⟩
      · exact sound.stack.later (.of_objects rfl rfl rfl rfl rfl)
      · have active := sound.entered busy
        have deeper : _ ≠ 1 := fun last => busy (closed last)
        simp only [Machine.leave] at active deeper ⊢
        omega
  | @opened _ _ _ _ _ depth _ _ resume active valid arguments_valid ran =>
      have led := Vm.openFrame_leads sound.sound depth valid arguments_valid
      obtain ⟨passed, frame_valid⟩ := led.of_ok ran
      have still := sound.pass passed.toKept
      refine ⟨still.sound, List.forall_mem_cons.mpr ⟨frame_valid, still.stack⟩, fun _ => ?_⟩
      exact passed.active ▸ active
  | @advanced m top callers outer mine fuel next others after ran =>
      obtain ⟨passed, valid⟩ := (sound.advance fuel).of_ok ran
      have below := sound.unwind passed.toKept
      refine ⟨passed.sound, List.forall_mem_append.mpr ⟨valid, below.stack⟩, fun _ => ?_⟩
      exact passed.active ▸ sound.entered (by simp)
  | @finished m top callers outer mine fuel results after ran =>
      exact sound.unwind ((sound.advance fuel).of_ok ran).1.toKept
  | @aborted m top callers outer mine fuel halt after ran =>
      exact sound.unwind ((sound.advance fuel).of_error ran).toKept
  | called fuel depth active valid arguments_valid caller_valid =>
      have led := Vm.call_conducts fuel depth sound.sound active valid arguments_valid caller_valid
      exact sound.pass led.leaves.toKept
  | @switched m stack mine context =>
      have passed : rules.Passed m mine { m with context } :=
        sound.sound.aside rfl rfl rfl rfl rfl rfl rfl rfl
      exact sound.pass passed.toKept
  | shared prototypes good =>
      exact sound.pass (sound.sound.changePrototypes prototypes good).toKept
  | dropped allowed => exact sound.pass sound.sound.drop

/-- Work does to the machine what operations do, or leaves its heap and its hooks. -/
theorem passed {s t : Situation} (sound : rules.SoundSituation s) (work : rules.Work s t)
    : (∃ left, rules.Passed s.machine left t.machine)
      ∨ t.machine.heap = s.machine.heap ∧ t.machine.hooks = s.machine.hooks := by
  cases work with
  | @created m stack mine name body bound valid behaves =>
      have native : rules.SoundNative m { name, body := .host body, bound } :=
        ⟨rfl, valid, behaves⟩
      exact .inl ⟨_, (Vm.createNative_leads sound.sound native).leaves⟩
  | @opened _ _ _ _ _ depth _ _ _ _ valid arguments_valid ran =>
      have led := Vm.openFrame_leads sound.sound depth valid arguments_valid
      exact .inl ⟨_, (led.of_ok ran).1⟩
  | @advanced _ _ _ _ _ fuel _ _ _ ran => exact .inl ⟨_, ((sound.advance fuel).of_ok ran).1⟩
  | @finished _ _ _ _ _ fuel _ _ ran => exact .inl ⟨_, ((sound.advance fuel).of_ok ran).1⟩
  | @aborted _ _ _ _ _ fuel _ _ ran => exact .inl ⟨_, (sound.advance fuel).of_error ran⟩
  | called fuel depth active valid arguments_valid caller_valid =>
      have led := Vm.call_conducts fuel depth sound.sound active valid arguments_valid caller_valid
      exact .inl ⟨_, led.leaves⟩
  | dropped allowed => exact .inl ⟨_, sound.sound.drop, fun apart => absurd allowed apart⟩
  | entered | left | switched | shared => exact .inr ⟨rfl, rfl⟩

/-- Where redirects are left to hooks, work changes them by operations on hooks only. -/
theorem traced {s t : Situation} (sound : rules.SoundSituation s) (work : rules.Work s t)
    (apart : ¬rules.redirects)
    : ∃ events, s.machine.Trace events t.machine := by
  rcases sound.passed work with ⟨_, passed⟩ | ⟨heap, hooks⟩
  · exact passed.trace apart
  · exact Machine.Quiet.trace (.of_eq (by rw [heap]) (by rw [hooks]))

/-- Unless it is a collection, a step does what operations do, or leaves the heap. -/
theorem kept {s t : Situation} (sound : rules.SoundSituation s) (step : rules.Step s t)
    : (∃ left, rules.Kept s.machine left t.machine) ∨ t.machine.heap = s.machine.heap
      ∨ t.machine = s.machine.collect.2 := by
  cases step with
  | worked work =>
      rcases sound.passed work with ⟨left, passed⟩ | ⟨heap, _⟩
      · exact .inl ⟨left, passed.toKept⟩
      · exact .inr (.inl heap)
  | @answered _ _ _ request fuel _ _ permits ran =>
      by_cases collects : request = .collect
      · subst collects
        exact .inr (.inr (EStateM.Result.ok.inj ran).2.symm)
      · exact .inl ⟨_, ((sound.serve fuel collects permits).of_ok ran).1.toKept⟩
  | @failed _ _ _ request fuel _ _ permits ran =>
      by_cases collects : request = .collect
      · subst collects
        cases ran
      · exact .inl ⟨_, ((sound.serve fuel collects permits).of_error ran).toKept⟩

/-- Unless it is a collection, a step does to tables what operations do. -/
theorem altered {s t : Situation} (sound : rules.SoundSituation s) (step : rules.Step s t)
    : s.machine.Altered t.machine ∨ t.machine = s.machine.collect.2 := by
  rcases sound.kept step with ⟨_, kept⟩ | heap | collected
  · exact .inl kept.altered
  · exact .inl (.aside (by rw [heap]) (by rw [heap]))
  · exact .inr collected

/-- Every step leads from a sound situation to a sound one. -/
theorem step {s t : Situation} (sound : rules.SoundSituation s) (step : rules.Step s t)
    : rules.SoundSituation t := by
  cases step with
  | worked work => exact sound.work work
  | @answered m stack mine request fuel answer after permits ran =>
      by_cases collects : request = .collect
      · subst collects
        obtain ⟨rfl, rfl⟩ := EStateM.Result.ok.inj ran
        exact sound.collect
      · exact sound.pass ((sound.serve fuel collects permits).of_ok ran).1.toKept
  | @failed m stack mine request fuel halt after permits ran =>
      by_cases collects : request = .collect
      · subst collects
        cases ran
      · exact sound.pass ((sound.serve fuel collects permits).of_error ran).toKept

end SoundSituation

-----------------------------------------------------------------------------------------
-- Other rules
-----------------------------------------------------------------------------------------

variable {other : Rules}

/-- A machine that is sound by some rules is sound by others if what objects refer to and what is
retained is valid by these, and its natives keep them.
-/
theorem Sound.change (sound : rules.Sound own m)
    (edges : ∀ source value, m.heap.Refers m.surroundings source value → other.Valid m value)
    (retained : ∀ slot value, m.heap.retained.get slot = .ok value → other.Valid m value)
    (natives : ∀ handle n, m.heap.natives.get handle = .ok n → other.Conforms n)
    : other.Sound own m where
  tables {handle t} found := by
    refine ⟨(sound.tables found).plain, fun value member => edges (.table ⟨handle⟩) value ?_⟩
    apply Heap.mem_references.mp
    simpa [Heap.references, found, Except.toOption] using member
  closures {handle c} found := by
    obtain ⟨plain, prototype, _, _, _⟩ := sound.closures found
    refine ⟨plain, ⟨prototype.bound, fun value member => edges (.closure ⟨handle⟩) value ?_⟩,
      edges _ _ (.environment found), fun cell member => edges _ _ (.upvalue found member),
      fun value redirected => edges _ _ (.redirect found redirected)⟩
    apply Heap.mem_references.mp
    simp only [Heap.references, found, Except.toOption, Option.elim, Closure.references]
    exact List.mem_append_right _ member
  natives {handle n} found :=
    ⟨(sound.natives found).plain, fun _ member => edges _ _ (.bound found member),
      natives handle n found⟩
  retained held := retained _ _ held
  globals := sound.globals
  minted := sound.minted
  ledger := sound.ledger
  targets := sound.targets
  single := sound.single

/-- What an activation shows of its closure is valid by the rules by which the machine is sound. -/
theorem Sound.validFrame {frame : Frame} (sound : rules.Sound own m) (runs : m.Runs frame)
    (registers : ∀ value ∈ frame.registers, rules.Valid m value)
    (extra : ∀ value ∈ frame.extra, rules.Valid m value)
    (captured : ∀ entry ∈ frame.captured, rules.ValidCell m entry.2)
    : rules.ValidFrame m frame := by
  obtain ⟨c, found, prototype, upvalues, environment⟩ := id runs
  have good := sound.closures found
  exact {
    runs, registers, extra, captured
    closure := .of_live rfl (Arena.contains_iff.mpr ⟨c, found⟩)
    prototype := prototype ▸ good.prototype
    environment := environment ▸ good.environment
    upvalues := upvalues ▸ good.upvalues }

end Rules
end HookMachine
