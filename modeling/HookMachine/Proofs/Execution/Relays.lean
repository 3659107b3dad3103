import HookMachine.Proofs.Execution.Convention
import HookMachine.Proofs.Execution.Redirects
import HookMachine.Proofs.Instruction.Words

/-!
Functions that hand everything on. One that calls a global with its parameters calls it with exactly
those and returns exactly what comes back; a variadic one that returns its extra arguments returns all
of them. Both keep to the general convention of calls, which is put together here.
-/

namespace HookMachine

/-- The code that calls the global under constant `k` with `n` parameters and returns all results. -/
def relayCode (n : UInt8) (k : UInt32) : List Instruction :=
  .abx .getGlobal n k
    :: ((List.range n.toNat).map fun i => .abc .move (n + 1 + i.toUInt8) i.toUInt16 0)
      ++ [.abc .call n (n.toUInt16 + 1) 0, .abc .ret n 0 0]

/-- A prototype starts with the code that calls a global with its parameters. -/
structure Prototype.Relays (p : Prototype) (n : Nat) (name : String) : Prop where
  parameters : p.parameters.toNat = n
  reads : ∃ i, p.code[0]? = some i ∧ i.operation? = some .getGlobal ∧ i.a = n
    ∧ p.constants[i.bx]? = some (.string name)
  moves {j : Nat} : j < n → ∃ i, p.code[1 + j]? = some i ∧ i.operation? = some .move
    ∧ i.a = n + 1 + j ∧ i.b = j
  calls : ∃ i, p.code[1 + n]? = some i ∧ i.operation? = some .call ∧ i.a = n ∧ i.b = n + 1 ∧ i.c = 0
  returns : ∃ i, p.code[2 + n]? = some i ∧ i.operation? = some .ret ∧ i.a = n ∧ i.b = 0

/-- A variadic prototype starts with the code that returns all extra arguments. -/
structure Prototype.Echoes (p : Prototype) : Prop where
  variadic : p.variadic = true
  spreads : ∃ i, p.code[0]? = some i ∧ i.operation? = some .vararg ∧ i.a = 0 ∧ i.b = 0
  returns : ∃ i, p.code[1]? = some i ∧ i.operation? = some .ret ∧ i.a = 0 ∧ i.b = 0

/-- The code does as it says for as many parameters as fields have room for. -/
theorem Prototype.relays_of_code {p : Prototype} {n : UInt8} {k : UInt32} {name : String}
    (few : n.toNat ≤ 127) (fits : k.toNat < 2 ^ 18) (code : p.code = (relayCode n k).toArray)
    (parameters : p.parameters = n) (constant : p.constants[k.toNat]? = some (.string name))
    : p.Relays n.toNat name := by
  have fetch (position : Nat) : p.code[position]? = (relayCode n k)[position]? := by
    rw [code, List.getElem?_toArray]
  constructor
  case parameters => rw [parameters]
  case reads =>
    obtain ⟨operation, a, bx⟩ := Instruction.abx_fields .getGlobal n k
    refine ⟨_, (fetch 0).trans rfl, operation, a, ?_⟩
    rw [bx, Nat.mod_eq_of_lt fits, constant]
  case moves =>
    intro j within
    obtain ⟨operation, a, b, -⟩ := Instruction.abc_fields .move (n + 1 + j.toUInt8) j.toUInt16 0
    have target : (n + 1 + j.toUInt8).toNat = n.toNat + 1 + j := by
      simp only [UInt8.toNat_add, Nat.toUInt8_eq, UInt8.toNat_ofNat']
      have one : (1 : UInt8).toNat = 1 := rfl
      omega
    have source : j.toUInt16.toNat = j := by
      rw [Nat.toUInt16_eq, UInt16.toNat_ofNat']
      omega
    refine ⟨_, (fetch (1 + j)).trans ?_, operation, a.trans target, ?_⟩
    · rw [Nat.add_comm]
      simp [relayCode, List.getElem?_append, within]
    · rw [b, source]
      omega
  case calls =>
    obtain ⟨operation, a, b, c⟩ := Instruction.abc_fields .call n (n.toUInt16 + 1) 0
    have count : (n.toUInt16 + 1).toNat = n.toNat + 1 := by
      rw [UInt16.toNat_add, UInt8.toNat_toUInt16]
      have one : (1 : UInt16).toNat = 1 := rfl
      omega
    refine ⟨_, (fetch (1 + n.toNat)).trans ?_, operation, a, ?_, c⟩
    · rw [Nat.add_comm]
      simp [relayCode]
    · rw [b, count]
      omega
  case returns =>
    obtain ⟨operation, a, b, -⟩ := Instruction.abc_fields .ret n 0 0
    refine ⟨_, (fetch (2 + n.toNat)).trans ?_, operation, a, b⟩
    rw [Nat.add_comm]
    simp [relayCode]

theorem Prototype.echoes_of_code {p : Prototype} (variadic : p.variadic = true)
    (code : p.code = #[.abc .vararg 0 0 0, .abc .ret 0 0 0])
    : p.Echoes := by
  obtain ⟨spreads, a, b, -⟩ := Instruction.abc_fields .vararg 0 0 0
  obtain ⟨returns, start, count, -⟩ := Instruction.abc_fields .ret 0 0 0
  exact ⟨variadic, ⟨_, by rw [code]; rfl, spreads, a, b⟩, ⟨_, by rw [code]; rfl, returns, start, count⟩⟩

namespace Vm

/-- Counts instructions against the limit. -/
def charges : Nat → Vm Unit
  | 0 => pure ()
  | count + 1 => do
      charge
      charges count

/-- What a function does that calls a global with its `n` parameters. -/
def relayed (invoke : Invoke) (n : Nat) (name : String) (ref : ClosureRef)
    (environment : TableRef) (arguments : List Value) (depth : Nat)
    : Vm (List Value) := do
  checkDepth depth
  charge
  let f ← index invoke (.table environment) (.string name) depth
  charges (n + 1)
  let results ← invoke f (fit n arguments) (some ref) (depth + 1)
  charge
  return results

/-- What a variadic function does that returns its extra arguments. -/
def echoed (parameters : Nat) (arguments : List Value) (depth : Nat) : Vm (List Value) := do
  checkDepth depth
  charges 2
  return arguments.drop parameters

open Run (Below Settled)

section

variable {m : Machine} {frame : Frame} {i : Instruction} {invoke : Invoke} {fuel n : Nat}
  {f : Value} {arguments : List Value} {name : String} {ref : ClosureRef} {cl : Closure}
  {depth : Nat} {caller : Option ClosureRef}

theorem relayed_below {first second : Invoke} (below : first.Below second) (n : Nat)
    (name : String) (ref : ClosureRef) (environment : TableRef) (arguments : List Value)
    (depth : Nat)
    : Below (relayed first n name ref environment arguments depth)
        (relayed second n name ref environment arguments depth) := by
  apply Below.bind (.refl _)
  intro _
  apply Below.bind (.refl _)
  intro _
  apply Below.bind (index_below below ..)
  intro f
  apply Below.bind (.refl _)
  intro _
  exact Below.bind (below ..) fun _ => .refl _

/-- Instructions are counted in whatever order, by induction over their number. -/
theorem charges_charge {α : Type} (count : Nat) (rest : Vm α)
    : (charges count >>= fun _ => charge >>= fun _ => rest)
      = charges (count + 1) >>= fun _ => rest := by
  induction count with
  | zero => simp only [charges, pure_bind, bind_assoc]
  | succ count ih =>
      rw [charges, charges, bind_assoc, bind_assoc]
      apply congrArg
      funext _
      exact ih

-----------------------------------------------------------------------------------------
-- One instruction after the other
-----------------------------------------------------------------------------------------

theorem runAlone_getGlobal (fetched : frame.code[frame.pc]? = some i)
    (operation : i.operation? = some .getGlobal)
    : runAlone invoke (fuel + 1) frame
      = charge >>= fun _ => constant frame.past i.bx >>= fun key =>
          index invoke (.table frame.environment) key frame.depth >>= fun value =>
            runAlone invoke fuel (frame.past.write i.a value) := by
  rw [runAlone, step_eq invoke fetched, operation]
  simp only [execute, bind_assoc, pure_bind]
  rfl

theorem runAlone_move (fetched : frame.code[frame.pc]? = some i)
    (operation : i.operation? = some .move)
    : runAlone invoke (fuel + 1) frame
      = charge >>= fun _ => runAlone invoke fuel (frame.past.write i.a (frame.read i.b)) := by
  rw [runAlone, step_eq invoke fetched, operation]
  simp only [execute, bind_assoc, pure_bind]
  rfl

theorem runAlone_vararg (fetched : frame.code[frame.pc]? = some i)
    (operation : i.operation? = some .vararg)
    : runAlone invoke (fuel + 1) frame
      = charge >>= fun _ => runAlone invoke fuel (spread frame.past i) := by
  rw [runAlone, step_eq invoke fetched, operation]
  simp only [execute, bind_assoc, pure_bind]

theorem runAlone_call (fetched : frame.code[frame.pc]? = some i)
    (operation : i.operation? = some .call)
    : runAlone invoke (fuel + 1) frame
      = charge >>= fun _ =>
          invoke (frame.read i.a) (frame.span (i.a + 1) i.b) (some frame.closure) (frame.depth + 1)
            >>= fun results => runAlone invoke fuel (frame.past.takeResults i.a i.c results) := by
  rw [runAlone, step_eq invoke fetched, operation]
  simp only [bind_assoc, pure_bind]
  rfl

theorem runAlone_ret (fetched : frame.code[frame.pc]? = some i)
    (operation : i.operation? = some .ret)
    : runAlone invoke (fuel + 1) frame = charge >>= fun _ => pure (frame.span i.a i.b) := by
  rw [runAlone, step_eq invoke fetched, operation]
  simp only [bind_assoc, pure_bind]

-----------------------------------------------------------------------------------------
-- Calling a global with the parameters
-----------------------------------------------------------------------------------------

/-- The activation has the global and the first parameters copied to behind the parameters. -/
structure Copied (frame : Frame) (code : Array Instruction) (n : Nat) (f : Value)
    (arguments : List Value) (copied : Nat) : Prop where
  code : frame.code = code
  pc : frame.pc = 1 + copied
  parameters {r : Nat} : r < n → frame.read r = arguments.getD r .nil
  global : frame.read n = f
  copies {r : Nat} : r < copied → frame.read (n + 1 + r) = arguments.getD r .nil

/-- The parameters are copied one after the other, by induction over those that are left. -/
theorem runAlone_copies {p : Prototype} (relays : p.Relays n name) {copied left : Nat}
    (so_far : Copied frame p.code n f arguments copied) (rest : copied + left = n)
    : ∃ last, Copied last p.code n f arguments n ∧ last.closure = frame.closure
        ∧ last.depth = frame.depth
        ∧ runAlone invoke (left + fuel) frame
          = charges left >>= fun _ => runAlone invoke fuel last := by
  induction left generalizing frame copied with
  | zero =>
      obtain rfl : copied = n := rest
      refine ⟨frame, so_far, rfl, rfl, ?_⟩
      rw [Nat.zero_add, charges, pure_bind]
  | succ left ih =>
      obtain ⟨i, fetched, operation, a, b⟩ := relays.moves (show copied < n by omega)
      rw [← so_far.pc, ← so_far.code] at fetched
      have next : Copied (frame.past.write i.a (frame.read i.b)) p.code n f arguments (copied + 1) := by
        obtain ⟨registers, written⟩ := Frame.exists_write frame.past i.a (frame.read i.b)
        have reads (r : Nat) : (frame.past.write i.a (frame.read i.b)).read r
            = if r = n + 1 + copied then arguments.getD copied .nil else frame.read r := by
          rw [Frame.read_write, a, b, so_far.parameters (by omega)]
          rfl
        constructor
        case code =>
          rw [written]
          exact so_far.code
        case pc =>
          rw [written]
          exact congrArg (· + 1) so_far.pc
        case parameters =>
          intro r within
          rw [reads, if_neg (by omega), so_far.parameters within]
        case global => rw [reads, if_neg (by omega), so_far.global]
        case copies =>
          intro r within
          rw [reads]
          by_cases last : r = copied
          · rw [if_pos (by omega), last]
          · rw [if_neg (by omega), so_far.copies (by omega)]
      obtain ⟨last, done, closure, depth, ran⟩ := ih next (by omega)
      obtain ⟨registers, written⟩ := Frame.exists_write frame.past i.a (frame.read i.b)
      rw [written] at closure depth
      refine ⟨last, done, closure, depth, ?_⟩
      rw [Nat.add_right_comm, runAlone_move fetched operation, ran, charges, bind_assoc]

theorem prototypes_of_charge {counted : Machine} (counts : charge m = .ok () counted)
    : counted.prototypes = m.prototypes := by
  unfold charge at counts
  rw [Run.bind_get] at counts
  dsimp only at counts
  split at counts
  · split at counts
    · cases counts
    · cases counts
      rfl
  · cases counts
    rfl

/-- What the copies are passed as. -/
theorem Copied.span {code : Array Instruction} (done : Copied frame code n f arguments n)
    : frame.span (n + 1) (n + 1) = fit n arguments := by
  rw [Frame.span_succ]
  apply List.ext_getElem
  · rw [List.length_map, List.length_range', length_fit]
  · intro r here there
    simp only [List.length_map, List.length_range'] at here
    have reads := done.copies here
    have fits := getD_fit_of_lt here arguments
    rw [List.getD_eq_getElem?_getD, List.getElem?_eq_getElem there] at fits
    simp only [List.getElem_map, List.getElem_range', Nat.one_mul]
    exact reads.trans fits.symm

/-- After the copies come the call and the return of all its results. -/
theorem runAlone_copied {p : Prototype} (relays : p.Relays n name)
    (done : Copied frame p.code n f arguments n)
    : runAlone invoke (fuel + 2) frame
      = charge >>= fun _ => invoke f (fit n arguments) (some frame.closure) (frame.depth + 1)
          >>= fun results => charge >>= fun _ => pure results := by
  obtain ⟨i, fetched, operation, a, b, c⟩ := relays.calls
  rw [← done.pc, ← done.code] at fetched
  rw [runAlone_call fetched operation, a, b, c, done.global, done.span]
  apply congrArg
  funext _
  apply congrArg
  funext results
  obtain ⟨registers, taken⟩ := Frame.exists_takeResults frame.past n 0 results
  obtain ⟨j, next, returns, a, b⟩ := relays.returns
  have fetched : (frame.past.takeResults n 0 results).code[(frame.past.takeResults n 0 results).pc]?
      = some j := by
    have pc : frame.past.pc = 2 + n := by
      change frame.pc + 1 = 2 + n
      rw [done.pc]
      omega
    have code : frame.past.code = p.code := done.code
    rw [taken]
    dsimp only
    rw [pc, code, next]
  rw [runAlone_ret fetched returns, a, b, Frame.takeResults_zero, Frame.span_fill]
  simp

/-- An activation that calls a global with its parameters does nothing else. -/
theorem runAlone_relays {p : Prototype} (relays : p.Relays n name)
    (opened : frame.Opened p arguments) (prototype : m.prototypes.get frame.prototype = p)
    (enough : n + 3 ≤ fuel)
    : runAlone invoke fuel frame m
      = (do
          charge
          let f ← index invoke (.table frame.environment) (.string name) frame.depth
          charges (n + 1)
          let results ← invoke f (fit n arguments) (some frame.closure) (frame.depth + 1)
          charge
          return results : Vm (List Value)) m := by
  obtain ⟨more, rfl⟩ := Nat.exists_eq_add_of_le' enough
  obtain ⟨i, fetched, operation, a, constant⟩ := relays.reads
  rw [← opened.pc, ← opened.code] at fetched
  rw [show more + (n + 3) = (n + (more + 2)) + 1 by omega, runAlone_getGlobal fetched operation]
  rcases counts : charge m with ⟨⟨⟩, counted⟩ | ⟨halt, counted⟩
  case error => rw [Run.bind_error counts, Run.bind_error counts]
  rw [Run.bind_ok counts, Run.bind_ok counts]
  have named : Vm.constant frame.past i.bx counted = .ok (.string name) counted := by
    have read : Vm.prototype frame.past.prototype counted = .ok p counted := by
      change EStateM.Result.ok (counted.prototypes.get frame.prototype) counted = _
      rw [prototypes_of_charge counts, prototype]
    refine (Run.bind_ok read).trans ?_
    rw [constant]
    rfl
  rw [Run.bind_ok named]
  refine congrFun (congrArg _ (funext fun value => ?_)) counted
  have start : Copied (frame.past.write i.a value) p.code n value arguments 0 := by
    obtain ⟨registers, written⟩ := Frame.exists_write frame.past i.a value
    constructor
    case code =>
      rw [written]
      exact opened.code
    case pc =>
      rw [written, Frame.past, opened.pc]
    case parameters =>
      intro r within
      rw [Frame.read_write, a, if_neg (by omega)]
      exact opened.parameters (relays.parameters ▸ within)
    case global => rw [Frame.read_write, a, if_pos rfl]
    case copies => exact fun none => absurd none (Nat.not_lt_zero _)
  obtain ⟨last, done, closure, depth, ran⟩ := runAlone_copies relays start (Nat.zero_add n)
  obtain ⟨registers, written⟩ := Frame.exists_write frame.past i.a value
  rw [written] at closure depth
  rw [ran, runAlone_copied relays done, closure, depth, charges_charge]
  rfl

/-- A call of a closure that is not redirected runs an activation of it. -/
theorem evaluate_closure (found : m.heap.closures.get ref.handle = .ok cl)
    (direct : cl.redirect = none) (within : depth ≤ m.config.limits.callDepth)
    (arguments : List Value) (caller : Option ClosureRef)
    : ∃ frame, frame.Opened (m.prototypes.get cl.prototype) arguments ∧ frame.closure = ref
        ∧ frame.environment = cl.environment ∧ frame.depth = depth
        ∧ frame.prototype = cl.prototype
        ∧ ∀ fuel, evaluate (fuel + 1) (.closure ref) arguments caller depth m
            = runAlone (evaluate fuel) fuel frame m := by
  have stays : m.Stays (.closure ref) := ⟨cl, found, direct⟩
  have resolved : resolve (.closure ref) m = .ok (.closure ref) m := by
    rw [resolve_eq]
    exact followRedirects_of_stays stays _
  obtain ⟨frame, opens, opened, closure, environment, level, made⟩ :=
    exists_openFrame found arguments depth
  refine ⟨frame, opened, closure, environment, level, made, fun fuel => ?_⟩
  exact (Run.bind_ok (checkDepth_of_le within)).trans
    ((Run.bind_ok resolved).trans (Run.bind_ok opens))

/-- A call of a function that hands its parameters on. -/
theorem evaluate_relays (found : m.heap.closures.get ref.handle = .ok cl)
    (direct : cl.redirect = none) (relays : (m.prototypes.get cl.prototype).Relays n name)
    (enough : n + 3 ≤ fuel)
    : evaluate (fuel + 1) (.closure ref) arguments caller depth m
      = relayed (evaluate fuel) n name ref cl.environment arguments depth m := by
  by_cases within : depth ≤ m.config.limits.callDepth
  · obtain ⟨frame, opened, closure, environment, level, made, ran⟩ :=
      evaluate_closure found direct within arguments caller
    have prototype : m.prototypes.get frame.prototype = m.prototypes.get cl.prototype := by rw [made]
    refine (ran fuel).trans ((runAlone_relays relays opened prototype enough).trans ?_)
    rw [closure, environment, level, relayed, Run.bind_ok (checkDepth_of_le within)]
  · have refused := checkDepth_of_lt (Nat.not_le.mp within)
    rw [relayed]
    exact (Run.bind_error refused).trans (Run.bind_error refused).symm

/-- A call of a variadic function that returns its extra arguments. -/
theorem evaluate_echoes (found : m.heap.closures.get ref.handle = .ok cl)
    (direct : cl.redirect = none) (echoes : (m.prototypes.get cl.prototype).Echoes)
    (enough : 2 ≤ fuel)
    : evaluate (fuel + 1) (.closure ref) arguments caller depth m
      = echoed (m.prototypes.get cl.prototype).parameters.toNat arguments depth m := by
  by_cases within : depth ≤ m.config.limits.callDepth
  · obtain ⟨frame, opened, -, -, -, -, ran⟩ := evaluate_closure found direct within arguments caller
    obtain ⟨more, rfl⟩ := Nat.exists_eq_add_of_le' enough
    obtain ⟨i, spreads, first, a, b⟩ := echoes.spreads
    obtain ⟨j, returns, second, start, count⟩ := echoes.returns
    have extra : frame.extra
        = arguments.drop (m.prototypes.get cl.prototype).parameters.toNat := by
      rw [opened.extra, if_pos echoes.variadic]
    have fetched : frame.code[frame.pc]? = some i := by rw [opened.code, opened.pc, spreads]
    have spread : Vm.spread frame.past i = frame.past.fill 0 frame.extra := by
      rw [Frame.spread_zero _ b, a]
      rfl
    obtain ⟨registers, filled⟩ := Frame.exists_writeAll frame.past 0 frame.extra
    have next : (frame.past.fill 0 frame.extra).code[(frame.past.fill 0 frame.extra).pc]?
        = some j := by
      have pc : frame.past.pc = 1 := congrArg (· + 1) opened.pc
      have code : frame.past.code = (m.prototypes.get cl.prototype).code := opened.code
      rw [Frame.fill, filled]
      dsimp only
      rw [pc, code, returns]
    have alone : runAlone (evaluate (more + 2)) (more + 2) frame
        = charges 2 >>= fun _ =>
            pure (arguments.drop (m.prototypes.get cl.prototype).parameters.toNat) := by
      rw [runAlone_vararg fetched first, spread, runAlone_ret next second, start, count,
        Frame.span_fill, extra]
      simp [charges]
    refine (ran _).trans ?_
    rw [alone, echoed, Run.bind_ok (checkDepth_of_le within)]
  · have refused := checkDepth_of_lt (Nat.not_le.mp within)
    rw [echoed]
    exact (Run.bind_error refused).trans (Run.bind_error refused).symm

/-- What recursion has from some fuel on for its outcome, the stack settles with. -/
theorem settles_call_iff {x : Nat → Vm (List Value)} {least : Nat}
    (same : ∀ fuel, least ≤ fuel → evaluate (fuel + 1) f arguments caller depth m = x fuel m)
    (grows : ∀ fuel more, fuel ≤ more → Below (x fuel) (x more))
    (outcome : EStateM.Result (Halt Fault) Machine (List Value))
    : Settles (call · f arguments caller depth) m outcome ↔ Settles x m outcome := by
  rw [call_settles_iff_evaluate]
  constructor
  · rintro ⟨settled, fuel, rfl⟩
    refine ⟨settled, max fuel least, ?_⟩
    have more := evaluate_below (Nat.le_succ_of_le (Nat.le_max_left fuel least))
    rw [← same _ (Nat.le_max_right fuel least)]
    exact (more f arguments caller depth).eq_of_settled m settled
  · rintro ⟨settled, fuel, rfl⟩
    refine ⟨settled, max fuel least + 1, ?_⟩
    change evaluate (max fuel least + 1) f arguments caller depth m = _
    rw [same _ (Nat.le_max_right fuel least)]
    exact (grows fuel _ (Nat.le_max_left fuel least)).eq_of_settled m settled

/-- A function that calls a global with its parameters does what that does with exactly these, but
for instructions that are counted.
-/
theorem call_relays (found : m.heap.closures.get ref.handle = .ok cl)
    (direct : cl.redirect = none) (relays : (m.prototypes.get cl.prototype).Relays n name)
    (outcome : EStateM.Result (Halt Fault) Machine (List Value))
    : Settles (call · (.closure ref) arguments caller depth) m outcome
      ↔ Settles (fun fuel => relayed (call fuel) n name ref cl.environment arguments depth) m
          outcome := by
  have recursion
      : Settles (call · (.closure ref) arguments caller depth) m outcome
        ↔ Settles (fun fuel => relayed (evaluate fuel) n name ref cl.environment arguments depth) m
            outcome :=
    settles_call_iff (fun _ enough => evaluate_relays found direct relays enough)
      (fun _ _ le => relayed_below (evaluate_below le) ..) outcome
  refine recursion.trans ⟨fun settles => ?_, fun settles => ?_⟩
  · refine settles.of_below fun fuel => ?_
    obtain ⟨enough, below⟩ := evaluate_below_call fuel
    exact ⟨enough, relayed_below below ..⟩
  · refine settles.of_below fun fuel => ?_
    obtain ⟨enough, below⟩ := call_below_evaluate fuel
    exact ⟨enough, relayed_below below ..⟩

/-- A variadic function that returns its extra arguments returns all of them. -/
theorem call_echoes (found : m.heap.closures.get ref.handle = .ok cl)
    (direct : cl.redirect = none) (echoes : (m.prototypes.get cl.prototype).Echoes)
    (outcome : EStateM.Result (Halt Fault) Machine (List Value))
    : Settles (call · (.closure ref) arguments caller depth) m outcome
      ↔ Settles
          (fun _ => echoed (m.prototypes.get cl.prototype).parameters.toNat arguments depth) m
          outcome :=
  settles_call_iff (fun _ enough => evaluate_echoes found direct echoes enough)
    (fun _ _ _ => .refl _) outcome

end

-----------------------------------------------------------------------------------------
-- The convention of calls
-----------------------------------------------------------------------------------------

/-- How calls pass values, whatever calls whatever and with however many values. -/
structure CallingConvention : Prop where
  /-- An activation of a closure finds its arguments in its registers and beyond them. -/
  opens {m ref cl} (arguments : List Value) (depth : Nat)
    : m.heap.closures.get ref.handle = .ok cl
      → ∃ frame, openFrame ref arguments depth m = .ok frame m
          ∧ frame.Opened (m.prototypes.get cl.prototype) arguments
  /-- A count names as many registers as it says. -/
  counted (frame : Frame) (start count : Nat)
    : frame.span start (count + 1) = (List.range' start count).map frame.read
  /-- An open end passes on all that a call with all its results, or the extra arguments, left. -/
  passes {frame filled a values i start invoke m flow after}
    : (filled = frame.takeResults a 0 values
        ∨ ∃ j : Instruction, j.a = a ∧ j.b = 0 ∧ frame.extra = values ∧ filled = spread frame j)
      → filled.code[filled.pc]? = some i → i.open? = some start
      → step invoke filled m = .ok flow after
      → flow.passed = (List.range' start (a - start)).map frame.read ++ values.drop (start - a)
  /-- Results that are counted are cut off or filled up with nil. -/
  results (frame : Frame) (a c : Nat) (results : List Value) (r : Nat)
    : (frame.takeResults a (c + 1) results).read r
      = if a ≤ r ∧ r < a + c then results.getD (r - a) .nil else frame.read r
  allResults (frame : Frame) (a : Nat) (results : List Value) (r : Nat)
    : (frame.takeResults a 0 results).read r
      = if a ≤ r ∧ r < a + results.length then results.getD (r - a) .nil else frame.read r
  /-- Nothing else of an activation changes when it takes results. -/
  keeps (frame : Frame) (a c : Nat) (results : List Value)
    : ∃ registers, frame.takeResults a c results
        = { frame with registers, top := if c = 0 then a + results.length else frame.top }
  /-- While what is called runs, the caller lies untouched below it, and then it takes the results
  that the call gives alone.
  -/
  calls {frame i resume callers m s fuel}
    : frame.code[frame.pc]? = some i → i.operation? = some .call
      → Relation.TransGen (Goes (call fuel)) ((⟨frame, resume⟩, callers), m) s
      → (∃ above, above ≠ [] ∧ s.1.1 :: s.1.2 = above ++ ⟨frame.past, resume⟩ :: callers)
        ∨ ∃ counted results middle, charge m = .ok () counted
            ∧ Settles
                (call · (frame.read i.a) (frame.span (i.a + 1) i.b) (some frame.closure)
                  (frame.depth + 1))
                counted (.ok results middle)
            ∧ Runs (call fuel)
                ((⟨frame.past.takeResults i.a i.c results, resume⟩, callers), middle) s
  /-- A function that calls a global with its parameters hands on exactly these and the results. -/
  relays {m : Machine} {ref : ClosureRef} {cl : Closure} {n : UInt8} {k : UInt32} {name : String}
    : m.heap.closures.get ref.handle = .ok cl → cl.redirect = none → n.toNat ≤ 127
      → k.toNat < 2 ^ 18 → (m.prototypes.get cl.prototype).code = (relayCode n k).toArray
      → (m.prototypes.get cl.prototype).parameters = n
      → (m.prototypes.get cl.prototype).constants[k.toNat]? = some (.string name)
      → ∀ arguments caller depth outcome,
          Settles (call · (.closure ref) arguments caller depth) m outcome
            ↔ Settles
                (fun fuel =>
                  relayed (call fuel) n.toNat name ref cl.environment arguments depth)
                m outcome
  whole (values : List Value) : fit values.length values = values
  /-- A variadic function that returns its extra arguments returns exactly those. -/
  echoes {m : Machine} {ref : ClosureRef} {cl : Closure}
    : m.heap.closures.get ref.handle = .ok cl → cl.redirect = none
      → (m.prototypes.get cl.prototype).variadic = true
      → (m.prototypes.get cl.prototype).code = #[.abc .vararg 0 0 0, .abc .ret 0 0 0]
      → ∀ arguments caller depth outcome,
          Settles (call · (.closure ref) arguments caller depth) m outcome
            ↔ Settles
                (fun _ =>
                  echoed (m.prototypes.get cl.prototype).parameters.toNat arguments depth)
                m outcome

/-- Arguments and results of any number are passed as the convention says. -/
theorem calling_convention : CallingConvention where
  opens arguments depth found := by
    obtain ⟨frame, opens, opened, -⟩ := exists_openFrame found arguments depth
    exact ⟨frame, opens, opened⟩
  counted := Frame.span_succ
  passes := by
    intro frame filled a values i start invoke m flow after fills fetched opens stepped
    rw [passed_of_open fetched opens stepped]
    rcases fills with rfl | ⟨j, rfl, all, rfl, rfl⟩
    · rw [Frame.takeResults_zero, Frame.span_fill]
    · rw [Frame.spread_zero frame all, Frame.span_fill]
  results frame a c results r := by
    have length : (taken (c + 1) results).length = c := length_fit c results
    rw [Frame.read_takeResults, Frame.readOver, length]
    split
    · rename_i within
      exact getD_fit_of_lt (by omega) results
    · rfl
  allResults frame a results r := Frame.read_takeResults frame a 0 results r
  keeps := Frame.exists_takeResults
  calls := runs_of_call
  relays found direct few fits code parameters constant _ _ _ outcome :=
    call_relays found direct (Prototype.relays_of_code few fits code parameters constant) outcome
  whole := fit_length
  echoes found direct variadic code _ _ _ outcome :=
    call_echoes found direct (Prototype.echoes_of_code variadic code) outcome

end Vm

end HookMachine
