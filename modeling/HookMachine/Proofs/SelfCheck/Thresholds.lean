import HookMachine.Proofs.Connections.Firing
import HookMachine.Proofs.Hook.Log
import HookMachine.Proofs.SelfCheck.Loading
import HookMachine.Proofs.SelfCheck.Scaling
import HookMachine.Proofs.Soundness.PrototypeContents

/-!
The thresholds of the self-check. It calls a function that takes two instructions, and that function
again when a hook sends the call on by one redirect; nothing else that it does comes up against a limit.
So it succeeds exactly if two instructions and one redirect are allowed.
-/

namespace HookMachine

namespace Machine

variable {m : Machine} {ref : ClosureRef} {c : Closure} {replacement : Value}

/-- Hooking changes closures, what hooks retain and the registry of hooks, and nothing else. -/
theorem exists_hooked (m : Machine) (ref : ClosureRef) (c : Closure) (replacement : Value)
    : ∃ closures retained guards hooks, closures.heap = m.heap.closures.heap
        ∧ m.hooked ref c replacement
          = { m with heap.closures := closures, heap.retained := retained, guards, hooks } := by
  let copied := (m.heap.closures.insert { c with redirect := none, marked := false }).2
  obtain ⟨retained, guards, same⟩ := letGoAll_eq
    ((m.guarded ref c replacement).2.redirected ref (some replacement)
      (m.hooks.insertFunction ref (m.guarded ref c replacement).1))
    ((m.hooks.function? ref).toList.flatMap FunctionHook.guards)
  exact ⟨_, retained, guards, _, (Arena.heap_modify ..).trans (Arena.heap_insert ..), same⟩

theorem exists_unhooked (m : Machine) (ref : ClosureRef) (hook : FunctionHook)
    : ∃ closures retained guards hooks, closures.heap = m.heap.closures.heap
        ∧ m.unhooked ref hook
          = { m with heap.closures := closures, heap.retained := retained, guards, hooks } := by
  obtain ⟨retained, guards, same⟩ := letGoAll_eq
    (m.redirected ref none (m.hooks.eraseFunction ref)) hook.guards
  exact ⟨_, retained, guards, _, Arena.heap_modify .., same⟩

end Machine

namespace SelfCheck

variable {α : Type} {m after : Machine} {config : Config} {log : List (String × List Value)}
  {ref : ClosureRef} {c : Closure} {native : NativeRef} {n : Native} {factor : Float}

-----------------------------------------------------------------------------------------
-- Checks
-----------------------------------------------------------------------------------------

/-- What a check reports that is passed. -/
def reported (name : String) : String × List Value :=
  (passed, [.string name])

/-- What holds all along: the configuration is that of the runtime, the heap mints its own handles, and
this was reported so far.
-/
structure Stands (config : Config) (log : List (String × List Value)) (m : Machine) : Prop where
  config : m.config = config
  minted : m.heap.Minted
  log : m.reports.toList = log

/-- A machine once more was reported. -/
def noted (m : Machine) (report : String × List Value) : Machine :=
  { m with reports := m.reports.push report }

theorem Stands.noted (stands : Stands config log m) (report : String × List Value)
    : Stands config (log ++ [report]) (noted m report) :=
  ⟨stands.config, stands.minted, by simp [SelfCheck.noted, stands.log]⟩

theorem Scales.noted (scales : Scales m ref c factor) (report : String × List Value)
    : Scales (noted m report) ref c factor :=
  ⟨scales.found, scales.prototype⟩

/-- A check that came out well is reported, and the others go on. -/
theorem pass {x : Action Bool} {rest : Unit → Action α} (ran : x m = .ok true after) (name : String)
    : (x >>= fun ok => check name ok >>= rest) m = rest () (noted after (reported name)) := by
  have reports : check name true after = .ok () (noted after (reported name)) :=
    request_eq (.report passed [.string name]) after
  exact (Run.bind_ok ran).trans (Run.bind_ok reports)

theorem scalesTo_ok {f : Value} {x expected : Float}
    (called : Action.request (.call f [.number 4]) m = .ok [.number x] m)
    (same : (x == expected) = true)
    : scalesTo f expected m = .ok true m := by
  have equal : ([.number x] == ([.number expected] : List Value)) = true := by
    change (x == expected && true) = true
    rw [same]
    rfl
  refine (Run.bind_ok called).trans ?_
  rw [equal]
  rfl

theorem scalesTo_error {f : Value} {expected : Float} {fault : Fault}
    (failed : Action.request (.call f [.number 4]) m = .error (.failed (.fault fault)) m)
    : scalesTo f expected m = .error (.failed (.fault fault)) m :=
  Run.bind_error failed

theorem discard_ok {x : Action α} {a : α} (ran : x m = .ok a after)
    : (discard x : Action Unit) m = .ok () after := by
  change EStateM.map _ x m = _
  simp only [EStateM.map, ran]

-----------------------------------------------------------------------------------------
-- What the checks do besides
-----------------------------------------------------------------------------------------

/-- A native that keeps nothing alive is made. -/
theorem createNative_ok (stands : Stands config log m) (scales : Scales m ref c factor)
    (free : n.bound = [])
    : ∃ native after, (liftM (Vm.createNative n) : Action NativeRef) m = .ok native after
        ∧ Stands config log after ∧ Scales after ref c factor
        ∧ after.heap.natives.get native.handle = .ok n := by
  let natives := (m.heap.natives.insert n).2
  have made : Vm.createNative n m
      = .ok ⟨(m.heap.natives.insert n).1⟩ { m with heap.natives := natives } := by
    unfold Vm.createNative
    rw [free]
    rfl
  refine ⟨_, _, Run.lift_ok made, ?_, ⟨scales.found, scales.prototype⟩, Arena.get_insert_self ..⟩
  obtain ⟨tables, closures, minted⟩ := stands.minted
  exact ⟨stands.config, ⟨tables, closures, (Arena.heap_insert ..).trans minted⟩, stands.log⟩

/-- A closure is hooked with a native: the closure is redirected, and its copy is not. -/
theorem hook_ok (stands : Stands config log m) (scales : Scales m ref c factor)
    (held : m.heap.natives.get native.handle = .ok n)
    : ∃ former after hook,
        Action.request (.hook (.closure ref) (.native native)) m = .ok (some former) after
          ∧ Stands config log after
          ∧ Scales after ref { c with redirect := some (.native native) } factor
          ∧ Scales after former { c with redirect := none, marked := false } factor
          ∧ after.heap.natives.get native.handle = .ok n
          ∧ after.hooks.function? ref = some hook := by
  let after := m.hooked ref c (.native native)
  let former := (m.copied c).1
  have owned : m.heap.owns (.native native) = true :=
    decide_eq_true ((Arena.heap_of_get held).trans stands.minted.natives)
  have hooked : Hook.install (.closure ref) (.native native) m = .ok (some former) after :=
    Hook.install_of_get stands.minted scales.found rfl rfl owned
  have other : former ≠ ref := by
    intro same
    have found : m.heap.closures.get former.handle = .ok c := same ▸ scales.found
    exact m.get_copied_fresh c c found
  obtain ⟨closures, retained, guards, hooks, heap, same⟩ := m.exists_hooked ref c (.native native)
  have prototypes : (m.hooked ref c (.native native)).prototypes = m.prototypes := by
    rw [same]
  refine ⟨former, after, (m.guarded ref c (.native native)).1, (request_eq ..).trans hooked,
    ?_, ⟨?_, ?_⟩, ⟨?_, ?_⟩, ?_, ?_⟩
  · obtain ⟨tables, minted, natives⟩ := stands.minted
    change Stands config log (m.hooked ref c (.native native))
    rw [same]
    exact ⟨stands.config, ⟨tables, heap.trans minted, natives⟩, stands.log⟩
  · refine Machine.get_hooked.mpr ⟨c, Machine.get_copied.mpr (.inr scales.found), ?_⟩
    rw [if_pos rfl]
  · exact prototypes ▸ scales.prototype
  · refine Machine.get_hooked.mpr ⟨_, Machine.get_copied.mpr (.inl ⟨rfl, rfl⟩), ?_⟩
    rw [if_neg other]
  · exact prototypes ▸ scales.prototype
  · change (m.hooked ref c (.native native)).heap.natives.get native.handle = .ok n
    rw [same]
    exact held
  · rw [Machine.hooks_hooked, HookRegistry.function?_insertFunction, if_pos rfl]

/-- A closure that has a hook is unhooked. -/
theorem unhook_ok {hook : FunctionHook} (stands : Stands config log m)
    (scales : Scales m ref c factor) (entry : m.hooks.function? ref = some hook)
    : ∃ after, Action.request (.unhook (.closure ref)) m = .ok true after
        ∧ Stands config log after ∧ Scales after ref { c with redirect := none } factor := by
  let after := m.unhooked ref hook
  have unhooked : Hook.restore (.closure ref) m = .ok true after :=
    Hook.restore_of_get entry scales.found
  obtain ⟨closures, retained, guards, hooks, heap, same⟩ := m.exists_unhooked ref hook
  refine ⟨after, (request_eq ..).trans unhooked, ?_, ?_, ?_⟩
  · obtain ⟨tables, minted, natives⟩ := stands.minted
    change Stands config log (m.unhooked ref hook)
    rw [same]
    exact ⟨stands.config, ⟨tables, heap.trans minted, natives⟩, stands.log⟩
  · refine Machine.get_unhooked.mpr ⟨c, scales.found, ?_⟩
    rw [if_pos rfl]
  · have prototypes : (m.unhooked ref hook).prototypes = m.prototypes := by
      rw [same]
    exact prototypes ▸ scales.prototype

/-- The factor is overwritten. -/
theorem setConstant_ok (stands : Stands config log m) (scales : Scales m ref c factor)
    (other : Float)
    : ∃ after, Action.request (.setConstant (.closure ref) 1 (.number other)) m = .ok true after
        ∧ Stands config log after ∧ Scales after ref c other := by
  let after : Machine :=
    { m with prototypes := m.prototypes.setConstant c.prototype 0 (.number other) }
  have overwritten : Reflection.setConstant (.closure ref) 1 (.number other) m = .ok true after := by
    have owned : (liftM (Vm.checkOwner (.number other)) : Action Unit) m = .ok () m :=
      Run.lift_ok (Vm.checkOwner_of_owns rfl)
    have known : Reflection.prototypeOf (.closure ref) m = .ok (some c.prototype) m :=
      Run.bind_ok (Run.lift_ok (Vm.closure_of_get scales.found))
    refine (Run.bind_ok owned).trans ((Run.bind_ok known).trans ?_)
    refine (Run.bind_ok (Run.lift_ok scales.read)).trans ?_
    rfl
  refine ⟨after, (request_eq ..).trans overwritten,
    ⟨stands.config, stands.minted, stands.log⟩, scales.found, ?_⟩
  change (m.prototypes.setConstant c.prototype 0 (.number other)).get c.prototype = _
  rw [PrototypeStore.get_setConstant, if_pos rfl, scales.prototype]
  rfl

-----------------------------------------------------------------------------------------
-- Connections
-----------------------------------------------------------------------------------------

/-- A native that reports the arguments of each call. -/
def reporter : Native where
  name := ping
  body := .host fun _ arguments => .ask (.report ping arguments) fun _ => .finish []

/-- A connection to the native, and whether it is enabled. -/
def Connects (m : Machine) (index : Nat) (native : NativeRef) (enabled : Bool) : Prop :=
  ∃ signal guard, guard.value = .native native
    ∧ m.connections[index]? = some { signal, callback := some guard, enabled }

theorem connect_ok (stands : Stands config log m)
    (held : m.heap.natives.get native.handle = .ok n) (signal : String)
    : ∃ index after, Action.request (.connect signal (.native native)) m = .ok index after
        ∧ Stands config log after ∧ after.heap.natives.get native.handle = .ok n
        ∧ Connects after index native true := by
  have accepted : m.accepts (.native native) = true :=
    decide_eq_true ((Arena.heap_of_get held).trans stands.minted.natives)
  have registered := Machine.register_of_accepts accepted signal
  refine ⟨_, _, (request_eq ..).trans registered, ?_, held, signal, _, rfl,
    Array.getElem?_push_size⟩
  obtain ⟨tables, closures, natives⟩ := stands.minted
  exact ⟨stands.config, ⟨tables, closures, natives⟩, stands.log⟩

/-- An enabled connection to the native has it report. -/
theorem fire_ok (held : m.heap.natives.get native.handle = .ok reporter) {index : Nat}
    (connects : Connects m index native true) (arguments : List Value)
    : Action.request (.fire index arguments) m = .ok true (noted m (ping, arguments)) := by
  obtain ⟨signal, guard, holds, found⟩ := connects
  have callback : ConnectionRegistry.callback? m.connections index = some (.native native) := by
    simp [ConnectionRegistry.callback?, found, holds]
  obtain ⟨fuel, invoke⟩ := exists_invoke m
  have ran : Vm.call (fuel + 3) (.native native) arguments none 0 (within m 0)
      = .ok [] (noted (within m 0) (ping, arguments)) := by
    rw [call_host (m := within m 0) held rfl]
    rfl
  rw [request_eq, invoke]
  refine Run.lift_ok ((Connection.fire_of_callback callback).trans ?_)
  exact Run.bind_ok (Run.attempt_ok (callFromHost_ok ran))

theorem disable_ok (stands : Stands config log m) {index : Nat}
    (connects : Connects m index native true)
    : ∃ answer after, Action.request (.setEnabled index false) m = .ok answer after
        ∧ Stands config log after ∧ Connects after index native false := by
  obtain ⟨signal, guard, holds, found⟩ := connects
  refine ⟨_, _, (request_eq ..).trans rfl, ⟨stands.config, stands.minted, stands.log⟩,
    signal, guard, holds, ?_⟩
  simp [ConnectionRegistry.setEnabled, Array.getElem?_modify, found]

/-- A disabled connection does nothing. -/
theorem fire_disabled {index : Nat} (connects : Connects m index native false)
    (arguments : List Value)
    : Action.request (.fire index arguments) m = .ok false m := by
  obtain ⟨signal, guard, holds, found⟩ := connects
  have silent : ConnectionRegistry.callback? m.connections index = none := by
    simp [ConnectionRegistry.callback?, found]
  rw [request_eq]
  generalize m.invoke = invoke
  exact Run.lift_ok (Connection.fire_of_silent silent)

theorem pinged_ok (names : List String) {values : List Value}
    (stands : Stands config (names.map reported ++ [(ping, values)]) m)
    : pinged m = .ok values.length m := by
  have other : passed ≠ ping := by decide
  have none (names : List String)
      : (names.map reported).foldl
          (fun n report => if report.1 == ping then n + report.2.length else n) 0 = 0 := by
    induction names with
    | nil => rfl
    | cons name rest ih => simpa [reported, other] using ih
  change EStateM.Result.ok (m.reports.toList.foldl _ 0) m = _
  rw [stands.log, List.foldl_append, none]
  simp

-----------------------------------------------------------------------------------------
-- The checks in a row
-----------------------------------------------------------------------------------------

/-- The checks before the one of connections, in order. -/
def probes : List String :=
  ["call", "hook redirects", "original keeps behaviour", "restore", "restored behaviour",
    "constant write", "constant visible"]

/-- The check of connections, which comes last. -/
def connectionCheck : Action Unit := do
  let callback ← Vm.createNative reporter
  let index ← Action.request (.connect "Ping" (.native callback))
  discard (Action.request (.fire index [.number 1, .number 2]))
  discard (Action.request (.setEnabled index false))
  discard (Action.request (.fire index [.number 3]))
  check "connection fire" ((← pinged) == 2)

/-- A connection fires while it is enabled, whatever the limits. -/
theorem connectionCheck_ok (stands : Stands config (probes.map reported) m)
    (scales : Scales m ref c factor)
    : ∃ last, connectionCheck m = .ok () last
        ∧ Stands config
            (probes.map reported
              ++ [(ping, [.number 1, .number 2]), reported "connection fire"]) last := by
  obtain ⟨callback, m₁, employed, stands₁, -, held⟩ :=
    createNative_ok stands scales (n := reporter) rfl
  obtain ⟨index, m₂, connected, stands₂, held, connects⟩ := connect_ok stands₁ held "Ping"
  have fired := fire_ok held connects [.number 1, .number 2]
  have stands₃ := stands₂.noted (ping, [.number 1, .number 2])
  obtain ⟨answer, m₄, disabled, stands₄, connects⟩ := disable_ok stands₃ connects
  have silent := fire_disabled connects [.number 3]
  have counted : pinged m₄ = .ok 2 m₄ := pinged_ok probes stands₄
  refine ⟨noted m₄ (reported "connection fire"), ?_, ?_⟩
  · refine (Run.bind_ok employed).trans ?_
    refine (Run.bind_ok connected).trans ?_
    refine (Run.bind_ok (discard_ok fired)).trans ?_
    refine (Run.bind_ok (discard_ok disabled)).trans ?_
    refine (Run.bind_ok (discard_ok silent)).trans ?_
    refine (Run.bind_ok counted).trans ?_
    exact request_eq (.report passed [.string "connection fire"]) m₄
  · simpa using stands₄.noted (reported "connection fire")

section

variable {prototype : PrototypeRef}
  (loaded : Action.request (.load .runtime prototype) m = .ok ref after)
  (stands : Stands config [] after) (scales : Scales after ref c 10) (stays : c.redirect = none)

include loaded stands scales stays

/-- With a single instruction the first call fails. -/
theorem checks_of_eq_one (one : config.limits.instructions = 1)
    : checks prototype m = .error (.failed (.fault .instructionLimit)) after := by
  have failed := request_call_of_eq_one scales stays (stands.config ▸ one) 4
  refine (Run.bind_ok loaded).trans ?_
  exact Run.bind_error (scalesTo_error failed)

/-- With more of them, or without a limit, the first call of the hooked function fails if no redirect is
allowed, and else all checks are passed.
-/
theorem checks_of_ne_one (enough : config.limits.instructions ≠ 1)
    : ∃ last,
        (config.limits.redirectDepth = 0
            ∧ checks prototype m = .error (.failed (.fault .redirectChain)) last
            ∧ Stands config [reported "call"] last)
          ∨ (1 ≤ config.limits.redirectDepth ∧ checks prototype m = .ok () last
            ∧ Stands config
                (probes.map reported
                  ++ [(ping, [.number 1, .number 2]), reported "connection fire"]) last) := by
  have called {now : Machine} {log : List (String × List Value)} {f : ClosureRef} {d : Closure}
      {factor expected : Float} (stands : Stands config log now) (scales : Scales now f d factor)
      (stays : d.redirect = none) (same : (4 * factor == expected) = true)
      : scalesTo (.closure f) expected now = .ok true now :=
    scalesTo_ok (request_call_of_ne_one scales stays (stands.config ▸ enough) 4) same
  have forty : ((4 : Float) * 10 == 40) = true := rfl
  have hundreds : ((4 : Float) * 100 == 400) = true := rfl
  have first := called stands scales stays forty
  have noted₁ := stands.noted (reported "call")
  obtain ⟨replacement, m₂, made, stands₂, scales₂, held⟩ :=
    createNative_ok noted₁ (scales.noted _)
      (n := { name := "replacement", body := .host fun _ _ => .finish [.number (-1)] }) rfl
  obtain ⟨former, m₃, hook, hooked, stands₃, scales₃, copied, held, entry⟩ :=
    hook_ok stands₂ scales₂ held
  have begins : checks prototype m = _ :=
    (Run.bind_ok loaded).trans ((pass first "call").trans
      ((Run.bind_ok made).trans (Run.bind_ok hooked)))
  rcases Nat.eq_zero_or_pos config.limits.redirectDepth with none | allowed
  case inl =>
    have strays : Action.request (.call (.closure ref) [.number 4]) m₃
        = .error (.failed (.fault .redirectChain)) m₃ :=
      request_call_of_no_redirect scales₃.found rfl (stands₃.config ▸ none)
    exact ⟨m₃, .inl ⟨none, begins.trans (Run.bind_error (scalesTo_error strays)), stands₃⟩⟩
  case inr =>
    have redirected
        : Action.request (.call (.closure ref) [.number 4]) m₃ = .ok [.number (-1)] m₃ :=
      request_call_of_redirect scales₃.found rfl held rfl rfl (stands₃.config ▸ allowed)
    have stands₄ := stands₃.noted (reported "hook redirects")
    have keeps := called stands₄ (copied.noted _) rfl forty
    have stands₅ := stands₄.noted (reported "original keeps behaviour")
    obtain ⟨m₆, unhooked, stands₆, scales₆⟩ :=
      unhook_ok stands₅ ((scales₃.noted _).noted _) entry
    have stands₇ := stands₆.noted (reported "restore")
    have restored := called stands₇ (scales₆.noted _) rfl forty
    have stands₈ := stands₇.noted (reported "restored behaviour")
    obtain ⟨m₉, overwritten, stands₉, scales₉⟩ :=
      setConstant_ok stands₈ ((scales₆.noted _).noted _) 100
    have stands₁₀ := stands₉.noted (reported "constant write")
    have visible := called stands₁₀ (scales₉.noted _) rfl hundreds
    have stands₁₁ := stands₁₀.noted (reported "constant visible")
    obtain ⟨last, connecting, complete⟩ := connectionCheck_ok stands₁₁ ((scales₉.noted _).noted _)
    refine ⟨last, .inr ⟨allowed, begins.trans ?_, complete⟩⟩
    refine (pass (scalesTo_ok redirected rfl) "hook redirects").trans ?_
    refine (pass keeps "original keeps behaviour").trans ?_
    refine (pass unhooked "restore").trans ?_
    refine (pass restored "restored behaviour").trans ?_
    refine (pass overwritten "constant write").trans ?_
    exact (pass visible "constant visible").trans connecting

end

-----------------------------------------------------------------------------------------
-- The runtime that is checked
-----------------------------------------------------------------------------------------

/-- A runtime made ready for checks: it has the prototype of the function that they are made on. -/
def readied (p : Prototype) (m : Machine) : Machine :=
  { m with
    prototypes := (({} : PrototypeStore).insert p).2
    context := ⟨0⟩ }

theorem stands_create (config : Config) : Stands config [] (Machine.create 1 config) := by
  have furnishes := Machine.furnishes_create 1 config
  have minted := furnishes.minted ⟨Arena.heap_insert (Heap.empty 1).tables {}, rfl, rfl⟩
  obtain ⟨_, _, _, _, _, same⟩ := furnishes.same
  rw [same] at minted ⊢
  exact ⟨rfl, minted, rfl⟩

/-- The function that the checks are made on is loaded, whatever the configuration. -/
theorem exists_loaded (config : Config)
    : ∃ ref c after,
        Action.request (.load .runtime ⟨0⟩) (readied scale (.create 1 config)) = .ok ref after
          ∧ Stands config [] after ∧ Scales after ref c 10 ∧ c.redirect = none := by
  have stands := stands_create config
  have layered := (Machine.Overlaid.create 1 config).layered
  have missing : (Machine.create 1 config).environments = {} :=
    (Machine.leads_create 1 config).unrecorded nofun
  -- From here on it does not matter how the runtime was made, and it is not to be evaluated.
  generalize Machine.create 1 config = m at *
  have ready : (readied scale m).Layered :=
    ⟨layered.minted, layered.root, layered.fallback, layered.overlay⟩
  have scales : (readied scale m).prototypes.get ⟨0⟩ = scaling 10 := by
    change (({} : PrototypeStore).insert scale).2.get ⟨0⟩ = _
    rw [scale_eq]
    rfl
  have plain : ((readied scale m).prototypes.get ⟨0⟩).upvalues = 0 := by
    rw [scales]
    rfl
  obtain ⟨middle, e, furnishes, loaded⟩ := Environment.load_runtime_furnishes ready
    (congrArg EnvironmentCache.shared missing) plain
  obtain ⟨tables, closures, natives⟩ := furnishes.minted stands.minted
  obtain ⟨_, _, _, _, _, rfl⟩ := furnishes.same
  exact ⟨_, _, _, (request_eq ..).trans loaded,
    ⟨stands.config, ⟨tables, (Arena.heap_insert ..).trans closures, natives⟩, stands.log⟩,
    ⟨Arena.get_insert_self .., scales⟩, rfl⟩

-----------------------------------------------------------------------------------------
-- The whole self-check
-----------------------------------------------------------------------------------------

/-- An operation that came to a result or was halted. -/
def ended {ε α : Type} (result : Except (Halt ε) α) (after : Machine)
    : EStateM.Result (Halt ε) Machine α :=
  match result with
  | .ok a => .ok a after
  | .error halt => .error halt after

theorem host_run_of_get {ε α : Type} {x : Run ε α} {host : Host} {runtime : RuntimeRef}
    {context : ContextRef} {result : Except (Halt ε) α}
    (found : host.runtimes[runtime.index]? = some m)
    (ran : x { m with prototypes := host.prototypes, context } = ended result after)
    : host.run runtime context x
      = (some result,
          { prototypes := after.prototypes
            runtimes := host.runtimes.setIfInBounds runtime.index
              { after with prototypes := {} } }) := by
  unfold Host.run
  rw [found]
  dsimp only
  rw [ran]
  cases result <;> rfl

/-- The names of the checks that were passed, by what was reported. -/
def passedOf (log : List (String × List Value)) : List String :=
  log.filterMap fun report =>
    if report.1 == passed then (report.2.head?.bind Value.toString?) else none

/-- A host with a prototype and a runtime. -/
def hosting (p : Prototype) (config : Config) : Host :=
  ((({} : Host).addPrototype p).2.addRuntime config).2

variable {result : Except (Halt Failure) Unit} {x : PrototypeRef → Action Unit} {p : Prototype}

theorem run_hosting (ran : x ⟨0⟩ (readied p (.create 1 config)) = ended result after)
    : (hosting p config).run ⟨0⟩ ⟨0⟩ (x ⟨0⟩)
      = (some result,
          { prototypes := after.prototypes, runtimes := #[{ after with prototypes := {} }] }) := by
  have runtimes : (hosting p config).runtimes = #[.create 1 config] := rfl
  have found : (hosting p config).runtimes[0]? = some (.create 1 config) := by
    rw [runtimes]
    generalize Machine.create 1 config = m
    rfl
  refine (host_run_of_get (m := .create 1 config) found ran).trans ?_
  rw [runtimes]
  generalize Machine.create 1 config = m
  rfl

/-- What comes of checks. They stand for those of the self-check, which are not to be evaluated while
the outcome is put together from theirs.
-/
theorem outcome_of_run {r : Config → Outcome}
    (runs : r = fun config =>
      let (prototype, host) := ({} : Host).addPrototype p
      let (runtime, host) := host.addRuntime config
      let (result, host) := host.run runtime ⟨0⟩ (x prototype)
      let reports := host.runtimes.toList.flatMap fun m : Machine => m.reports.toList
      { passed :=
          reports.filterMap fun report : String × List Value =>
            if report.1 == passed then (report.2.head?.bind Value.toString?) else none
        result := result.getD (.ok ()) })
    (ran : x ⟨0⟩ (readied p (.create 1 config)) = ended result after)
    : r config = { passed := passedOf after.reports.toList, result } := by
  rw [runs]
  change
    (match (hosting p config).run ⟨0⟩ ⟨0⟩ (x ⟨0⟩) with
      | (result, host) =>
          ({ passed := passedOf (host.runtimes.toList.flatMap fun m : Machine => m.reports.toList)
             result := result.getD (.ok ()) } : Outcome))
      = _
  rw [run_hosting ran]
  simp

theorem run_of_checks (ran : checks ⟨0⟩ (readied scale (.create 1 config)) = ended result after)
    : run config = { passed := passedOf after.reports.toList, result } := by
  refine outcome_of_run (x := checks) ?_ ran
  delta run
  with_reducible rfl

theorem passedOf_append (names : List String) (log : List (String × List Value))
    : passedOf (names.map reported ++ log) = names ++ passedOf log := by
  induction names with
  | nil => rfl
  | cons name rest ih => exact congrArg (name :: ·) ih

/-- With a single instruction not even the first call returns. -/
theorem run_of_eq_one (one : config.limits.instructions = 1)
    : run config = { passed := [], result := .error (.failed (.fault .instructionLimit)) } := by
  obtain ⟨ref, c, m, loaded, stands, scales, stays⟩ := exists_loaded config
  have failed : checks ⟨0⟩ (readied scale (.create 1 config))
      = ended (.error (.failed (.fault .instructionLimit))) m :=
    checks_of_eq_one loaded stands scales stays one
  rw [run_of_checks failed, stands.log]
  rfl

/-- Without redirects the call of the hooked function fails. -/
theorem run_of_no_redirect (enough : config.limits.instructions ≠ 1)
    (none : config.limits.redirectDepth = 0)
    : run config
      = { passed := ["call"], result := .error (.failed (.fault .redirectChain)) } := by
  obtain ⟨ref, c, m, loaded, stands, scales, stays⟩ := exists_loaded config
  obtain ⟨last, ⟨-, failed, stands⟩ | ⟨allowed, -⟩⟩ :=
    checks_of_ne_one loaded stands scales stays enough
  · replace failed : checks ⟨0⟩ (readied scale (.create 1 config))
        = ended (.error (.failed (.fault .redirectChain))) last := failed
    rw [run_of_checks failed, stands.log]
    rfl
  · omega

/-- Otherwise all checks are passed. -/
theorem run_of_redirect (enough : config.limits.instructions ≠ 1)
    (allowed : 1 ≤ config.limits.redirectDepth)
    : run config = { passed := probes ++ ["connection fire"], result := .ok () } := by
  obtain ⟨ref, c, m, loaded, stands, scales, stays⟩ := exists_loaded config
  obtain ⟨last, ⟨none, -⟩ | ⟨-, ran, stands⟩⟩ :=
    checks_of_ne_one loaded stands scales stays enough
  · omega
  · replace ran : checks ⟨0⟩ (readied scale (.create 1 config)) = ended (.ok ()) last := ran
    rw [run_of_checks ran, stands.log, passedOf_append]
    rfl

/-- The checks in order, each with the fault that keeps it from being completed under some limits. -/
def obstacles (limits : Limits) : List (String × Option Fault) :=
  let code := if limits.instructions = 1 then some Fault.instructionLimit else none
  let redirect := if limits.redirectDepth = 0 then some Fault.redirectChain else none
  [("call", code), ("hook redirects", redirect), ("original keeps behaviour", code),
    ("restore", none), ("restored behaviour", code), ("constant write", none),
    ("constant visible", code), ("connection fire", none)]

/-- What checks come to that are made one after the other, until one cannot be completed. -/
def outcomeOf : List (String × Option Fault) → Outcome
  | [] => { passed := [], result := .ok () }
  | (_, some fault) :: _ => { passed := [], result := .error (.failed (.fault fault)) }
  | (name, none) :: rest => { outcomeOf rest with passed := name :: (outcomeOf rest).passed }

/-- The self-check succeeds exactly if one redirect and two instructions are allowed. Else it fails with
the fault of the first check that it cannot complete, after all those before that are passed.
-/
theorem run_succeeds_iff (config : Config)
    : ((run config).result = .ok ()
        ↔ 1 ≤ config.limits.redirectDepth
          ∧ (config.limits.instructions = 0 ∨ 2 ≤ config.limits.instructions))
      ∧ run config = outcomeOf (obstacles config.limits) := by
  by_cases one : config.limits.instructions = 1
  · rw [run_of_eq_one one]
    simp [obstacles, outcomeOf, one]
  by_cases none : config.limits.redirectDepth = 0
  · rw [run_of_no_redirect one none]
    simp [obstacles, outcomeOf, one, none]
  · have allowed := Nat.one_le_iff_ne_zero.mpr none
    rw [run_of_redirect one allowed]
    refine ⟨⟨fun _ => ⟨allowed, ?_⟩, fun _ => rfl⟩, ?_⟩
    · omega
    · simp [obstacles, outcomeOf, one, none, probes]

end SelfCheck
end HookMachine
