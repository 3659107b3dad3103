import HookMachine.Proofs.Bounds.Course
import HookMachine.Proofs.Execution.Convention
import HookMachine.Proofs.Execution.Redirects
import HookMachine.SelfCheck

/-!
Calls that the host makes, one by one. A function that multiplies takes two instructions, and a native
none; where a closure is redirected to a native, the call of it takes one redirect besides. Nothing
else of the limits matters, and a call that comes to its end or fails leaves the machine as it was.
-/

namespace HookMachine.SelfCheck

variable {m after : Machine} {invoke : Invoke} {f : Value} {arguments results : List Value}
  {steps : Nat} {ref : ClosureRef} {c : Closure} {native : NativeRef} {n : Native}
  {factor x : Float}

-----------------------------------------------------------------------------------------
-- Calls from the host
-----------------------------------------------------------------------------------------

/-- However low the limits, the host has fuel for a call and a few instructions. -/
theorem exists_invoke (m : Machine) : ∃ fuel, m.invoke = Vm.call (fuel + 3) := by
  have enough : 3 ≤ m.config.limits.fuel := by
    unfold Limits.fuel
    exact Nat.le_trans (Nat.le_add_left 3 _) (Nat.le_mul_of_pos_right _ (by decide))
  obtain ⟨fuel, same⟩ := Nat.exists_eq_add_of_le' enough
  refine ⟨fuel, ?_⟩
  rw [Machine.invoke, same]

/-- A request is served by calls as the limits allow. -/
theorem request_eq (request : Request) (m : Machine)
    : Action.request request m = serve m.invoke request m := by
  unfold Action.request
  exact Run.bind_get (fun m => serve m.invoke request) m

/-- A machine within a call from the host, which has executed some instructions. -/
def within (m : Machine) (steps : Nat) : Machine :=
  { m.enter with steps }

/-- What a call from the host counts is forgotten when it returns. -/
theorem callFromHost_ok (ran : invoke f arguments none 0 (within m 0) = .ok results after)
    : Vm.callFromHost invoke f arguments m = .ok results (after.leave m.steps) := by
  replace ran : invoke f arguments none 0 m.enter = .ok results after := ran
  unfold Vm.callFromHost Vm.enter
  rw [ran]

/-- So is what it counts when it fails. -/
theorem callFromHost_error {fault : Fault}
    (failed : invoke f arguments none 0 (within m 0) = .error (.failed fault) after)
    : Vm.callFromHost invoke f arguments m = .error (.failed fault) (after.leave m.steps) := by
  replace failed : invoke f arguments none 0 m.enter = .error (.failed fault) after := failed
  unfold Vm.callFromHost Vm.enter
  rw [failed]

theorem serve_call_ok (ran : invoke f arguments none 0 (within m 0) = .ok results (within m steps))
    : serve invoke (.call f arguments) m = .ok results m :=
  Run.lift_ok (callFromHost_ok ran)

theorem serve_call_error {fault : Fault}
    (failed : invoke f arguments none 0 (within m 0) = .error (.failed fault) (within m steps))
    : serve invoke (.call f arguments) m = .error (.failed (.fault fault)) m :=
  Run.lift_error (callFromHost_error failed)

-----------------------------------------------------------------------------------------
-- Functions that multiply
-----------------------------------------------------------------------------------------

/-- The prototype of a function that multiplies its argument by a factor. -/
def scaling (factor : Float) : Prototype where
  name := some "scale"
  line := 1
  code := #[.abc .mul 1 0 (constantOperand 0), .abc .ret 1 2 0]
  constants := #[.number factor]
  parameters := 1
  window := 2

theorem scale_eq : scale = scaling 10 := by
  with_unfolding_all rfl

/-- A closure that multiplies its argument by a factor, unless its calls go elsewhere. -/
structure Scales (m : Machine) (ref : ClosureRef) (c : Closure) (factor : Float) : Prop where
  found : m.heap.closures.get ref.handle = .ok c
  prototype : m.prototypes.get c.prototype = scaling factor

theorem Scales.read (scales : Scales m ref c factor)
    : Vm.prototype c.prototype m = .ok (scaling factor) m :=
  congrArg (EStateM.Result.ok · m) scales.prototype

theorem Scales.within (scales : Scales m ref c factor) (steps : Nat)
    : Scales (within m steps) ref c factor :=
  ⟨scales.found, scales.prototype⟩

/-- An activation of a function that multiplies, before it does. -/
def entered (ref : ClosureRef) (c : Closure) (x : Float) : Frame where
  closure := ref
  prototype := c.prototype
  code := (scaling 0).code
  upvalues := c.upvalues
  environment := c.environment
  registers := #[.number x, .nil]
  extra := []
  depth := 0

/-- The activation once it has multiplied. -/
def scaled (ref : ClosureRef) (c : Closure) (factor x : Float) : Frame :=
  { entered ref c x with registers := #[.number x, .number (x * factor)], pc := 1 }

theorem openFrame_scaling (scales : Scales m ref c factor)
    : Vm.openFrame ref [.number x] 0 m = .ok (entered ref c x) m := by
  refine (Run.bind_ok (Vm.closure_of_get scales.found)).trans ?_
  refine (Run.bind_ok scales.read).trans ?_
  rfl

theorem step_entered (scales : Scales m ref c factor) (charged : Vm.charge after = .ok () m)
    : Vm.step invoke (entered ref c x) after = .ok (.next (scaled ref c factor x)) m := by
  have fetched : (entered ref c x).code[0]? = some (.abc .mul 1 0 (constantOperand 0)) := by
    rfl
  rw [Vm.step_eq invoke fetched]
  refine (Run.bind_ok charged).trans ?_
  have constant : Vm.constant (entered ref c x).past 0 m = .ok (.number factor) m := by
    refine (Run.bind_ok scales.read).trans ?_
    rfl
  refine Run.bind_ok (a := scaled ref c factor x) ?_
  refine (Run.bind_ok rfl).trans ((Run.bind_ok constant).trans ?_)
  rfl

theorem step_scaled (charged : Vm.charge after = .ok () m)
    : Vm.step invoke (scaled ref c factor x) after = .ok (.finish [.number (x * factor)]) m := by
  have fetched : (scaled ref c factor x).code[1]? = some (.abc .ret 1 2 0) := by
    rfl
  rw [Vm.step_eq invoke fetched]
  exact Run.bind_ok charged

/-- A call of a function that multiplies opens an activation of it, however low the limits. -/
theorem call_scaling (scales : Scales m ref c factor) (stays : c.redirect = none) (fuel : Nat)
    : Vm.call (fuel + 1) (.closure ref) [.number x] none 0 m
      = Vm.runFrames (Vm.call fuel) fuel ⟨entered ref c x, .forward⟩ [] m := by
  have here : m.Stays (.closure ref) := ⟨c, scales.found, stays⟩
  have reached : Vm.resolve (.closure ref) m = .ok (.closure ref) m :=
    (Vm.resolve_eq ..).trans (Vm.followRedirects_of_stays here _)
  rw [Vm.call_succ]
  refine (Run.bind_ok (Vm.checkDepth_of_le (Nat.zero_le _))).trans ?_
  refine (Run.bind_ok reached).trans ?_
  exact Run.bind_ok (openFrame_scaling scales)

section

variable (scales : Scales m ref c factor) (stays : c.redirect = none)

include scales stays

/-- A function that multiplies does so if the host may execute two instructions. -/
theorem request_call_of_ne_one (enough : m.config.limits.instructions ≠ 1) (x : Float)
    : Action.request (.call (.closure ref) [.number x]) m = .ok [.number (x * factor)] m := by
  have counts (steps : Nat) (few : steps < 2)
      : ∃ more ≤ steps + 1, Vm.charge (within m steps) = .ok () (within m more) := by
    rcases Nat.eq_zero_or_pos m.config.limits.instructions with free | limited
    · exact ⟨steps, Nat.le_succ steps, Vm.charge_of_free free⟩
    · refine ⟨steps + 1, Nat.le_refl _, Vm.charge_of_lt ?_⟩
      change steps < m.config.limits.instructions
      omega
  obtain ⟨once, le, first⟩ := counts 0 (by decide)
  obtain ⟨twice, -, second⟩ := counts once (by omega)
  obtain ⟨fuel, invoke⟩ := exists_invoke m
  have ran : Vm.call (fuel + 3) (.closure ref) [.number x] none 0 (within m 0)
      = .ok [.number (x * factor)] (within m twice) := by
    rw [call_scaling (scales.within 0) stays, Vm.runFrames_succ]
    refine (Run.bind_ok (step_entered (scales.within once) first)).trans ?_
    dsimp only
    rw [Vm.runFrames_succ]
    exact Run.bind_ok (step_scaled second)
  rw [request_eq, invoke]
  exact serve_call_ok ran

/-- With a single instruction it does not come to return. -/
theorem request_call_of_eq_one (one : m.config.limits.instructions = 1) (x : Float)
    : Action.request (.call (.closure ref) [.number x]) m
      = .error (.failed (.fault .instructionLimit)) m := by
  have limited : 0 < m.config.limits.instructions := by omega
  have first : Vm.charge (within m 0) = .ok () (within m 1) := Vm.charge_of_lt limited
  have spent : Vm.charge (within m 1) = .error (.failed .instructionLimit) (within m 1) :=
    Vm.charge_of_le limited (Nat.le_of_eq one)
  obtain ⟨fuel, invoke⟩ := exists_invoke m
  have failed : Vm.call (fuel + 3) (.closure ref) [.number x] none 0 (within m 0)
      = .error (.failed .instructionLimit) (within m 1) := by
    rw [call_scaling (scales.within 0) stays, Vm.runFrames_succ]
    refine (Run.bind_ok (step_entered (scales.within 1) first)).trans ?_
    dsimp only
    rw [Vm.runFrames_succ]
    refine Run.bind_error ?_
    rw [Vm.step_eq _ rfl]
    exact Run.bind_error spent
  rw [request_eq, invoke]
  exact serve_call_error failed

end

-----------------------------------------------------------------------------------------
-- Natives
-----------------------------------------------------------------------------------------

/-- A call of a function of the host runs it. -/
theorem call_host {body : HostFunction} (held : m.heap.natives.get native.handle = .ok n)
    (hosts : n.body = .host body) (fuel : Nat)
    : Vm.call (fuel + 1) (.native native) arguments none 0 m
      = Vm.runProgram (Vm.call fuel) (Vm.call fuel · · none 1) (body none arguments) m := by
  have here : m.Stays (.native native) := trivial
  have reached : Vm.resolve (.native native) m = .ok (.native native) m :=
    (Vm.resolve_eq ..).trans (Vm.followRedirects_of_stays here _)
  refine (Run.bind_ok (Vm.checkDepth_of_le (Nat.zero_le _))).trans ?_
  refine (Run.bind_ok reached).trans ?_
  refine (Run.bind_ok (Vm.native_of_get held)).trans ?_
  rw [hosts]

/-- A call of a closure that is redirected to a native runs that instead, if one redirect may be
followed.
-/
theorem request_call_of_redirect {body : HostFunction}
    (found : m.heap.closures.get ref.handle = .ok c) (redirect : c.redirect = some (.native native))
    (held : m.heap.natives.get native.handle = .ok n) (hosts : n.body = .host body)
    (finishes : body none arguments = .finish results)
    (enough : 1 ≤ m.config.limits.redirectDepth)
    : Action.request (.call (.closure ref) arguments) m = .ok results m := by
  have chain : m.Hops 1 (.closure ref) (.native native) := .hop found redirect (.none _)
  obtain ⟨fuel, invoke⟩ := exists_invoke m
  have ran : Vm.call (fuel + 3) (.native native) arguments none 0 (within m 0)
      = .ok results (within m 0) := by
    rw [call_host (m := within m 0) held hosts, finishes]
    rfl
  rw [request_eq, invoke, (m.callsAlike_of_hops chain trivial enough).host]
  exact serve_call_ok ran

/-- It fails if none may be followed. -/
theorem request_call_of_no_redirect (found : m.heap.closures.get ref.handle = .ok c)
    (redirect : c.redirect = some f) (none : m.config.limits.redirectDepth = 0)
    : Action.request (.call (.closure ref) arguments) m
      = .error (.failed (.fault .redirectChain)) m := by
  have fails : m.CallsFail (.closure ref) := by
    refine Machine.callsFail_of_resolve fun after heap config => ?_
    rw [Vm.resolve_eq, config, none]
    exact Vm.followRedirects_zero (heap ▸ found) redirect
  obtain ⟨fuel, invoke⟩ := exists_invoke m
  rw [request_eq, invoke]
  exact fails.host (fuel + 2) arguments

end HookMachine.SelfCheck
