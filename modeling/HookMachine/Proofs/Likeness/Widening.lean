import HookMachine.Proofs.Execution.Propagation
import HookMachine.Proofs.Execution.Redirects
import HookMachine.Proofs.Likeness.Twins

/-!
Wider limits. All that limits do is to cut runs short: a call that none of them cuts short comes to
the same results, the same failure and the same machine under limits that are wider.
-/

namespace HookMachine

namespace Limits

/-- Limits that allow no less; no limit on instructions is the widest. -/
structure Within (limits wider : Limits) : Prop where
  callDepth : limits.callDepth ≤ wider.callDepth
  redirectDepth : limits.redirectDepth ≤ wider.redirectDepth
  instructions : wider.instructions = 0
    ∨ limits.instructions ≠ 0 ∧ limits.instructions ≤ wider.instructions

end Limits

/-- The faults by which limits cut runs short. -/
def Fault.isLimit : Fault → Bool
  | .stackOverflow | .instructionLimit | .redirectChain => true
  | _ => false

/-- A run under limits and one under wider ones have counted as many instructions while the wider
limits make them count.
-/
def Limits.Within.pace {limits wider : Limits} (within : limits.Within wider) : Pace where
  relates l s k t := l = limits ∧ k = wider ∧ (wider.instructions = 0 ∨ s = t)
  escapes fault := fault.isLimit = true
  depth := by
    rintro _ _ _ _ ⟨rfl, rfl, -⟩
    exact .inr ⟨within.callDepth, rfl⟩
  redirects := by
    rintro _ _ _ _ ⟨rfl, rfl, -⟩
    exact .inr ⟨within.redirectDepth, rfl⟩
  count := by
    rintro l k s t ⟨rfl, rfl, counts⟩
    have instructions := within.instructions
    unfold Limits.count
    by_cases free : k.instructions = 0
    · rw [if_pos free]
      by_cases unlimited : l.instructions = 0
      · rw [if_pos unlimited]
        exact .inl ⟨_, _, rfl, rfl, rfl, rfl, .inl free⟩
      · rw [if_neg unlimited]
        by_cases left : s < l.instructions
        · rw [if_pos left]
          exact .inl ⟨_, _, rfl, rfl, rfl, rfl, .inl free⟩
        · rw [if_neg left]
          exact .inr ⟨rfl, .inr rfl⟩
    · have same : s = t := counts.resolve_left free
      obtain ⟨limited, le⟩ := instructions.resolve_left free
      subst same
      rw [if_neg free, if_neg limited]
      by_cases left : s < l.instructions
      · rw [if_pos left, if_pos (by omega)]
        exact .inl ⟨_, _, rfl, rfl, rfl, rfl, .inr rfl⟩
      · rw [if_neg left]
        exact .inr ⟨rfl, .inr rfl⟩
  fresh := by
    rintro _ _ _ _ ⟨rfl, rfl, -⟩
    exact ⟨rfl, rfl, .inr rfl⟩
  restore := by
    rintro _ _ _ _ _ _ _ _ ⟨rfl, rfl, same⟩ ⟨rfl, rfl, -⟩
    exact ⟨rfl, rfl, same⟩

/-- Keeps no state, and permits no failure by a limit. -/
def Watch.uncut : Watch Unit where
  note _ _ := ()
  permits _ point := ∀ fault, point.mark = .failed fault → fault.isLimit = false
  onward _ _ := True

theorem Watch.uncut_allows {points : List Point}
    : Watch.uncut.Allows () points
      ↔ ∀ point ∈ points, ∀ fault, point.mark = .failed fault → fault.isLimit = false := by
  induction points with
  | nil => simp [Allows]
  | cons point rest ih =>
      rw [List.forall_mem_cons, ← ih]
      exact Iff.rfl

variable {limits wider : Limits}

theorem Limits.Within.conducted (within : limits.Within wider)
    : (Likeness.twins within.pace fun _ _ => True).Conducted Watch.uncut :=
  Likeness.twins_conducted (Likeness.twins_seamless fun _ _ => trivial).regular
    (fun _ _ => trivial) (fun _ => trivial) (fun _ _ => trivial) (fun _ => rfl)
    (fun permits escapes => by simp [permits _ rfl, Limits.Within.pace] at escapes)
    (fun _ => trivial) (fun _ _ _ _ => ⟨trivial, trivial⟩) (fun _ _ _ _ _ => ⟨trivial, trivial⟩)

/-- A call that fails by a limit nowhere ends the same under wider limits, whatever natives do. -/
theorem Vm.callFromHost_uncut {m : Machine} (within : m.config.limits.Within wider) (fuel : Nat)
    {f : Value} {arguments : List Value}
    (uncut : ∀ point ∈ callTrace fuel { f, arguments, caller := none, depth := 0 } m.enter,
      ∀ fault, point.mark = .failed fault → fault.isLimit = false)
    : callFromHost (call fuel) f arguments (m.limited wider m.steps)
      = match callFromHost (call fuel) f arguments m with
        | .ok results after => .ok results (after.limited wider after.steps)
        | .error halt after => .error halt (after.limited wider after.steps) := by
  have whole : Tie.identity.Whole := Tie.identity_whole
  have calls : Tie.identity.Invocations { f, arguments, caller := none, depth := 0 }
      { f, arguments, caller := none, depth := 0 } :=
    ⟨whole.values.mpr rfl, whole.lists.mpr rfl, .none, rfl⟩
  have alike : (Likeness.twins within.pace fun _ _ => True).machines () m.enter
      (m.limited wider m.steps).enter :=
    ⟨wider, 0, rfl, ⟨rfl, rfl, .inr rfl⟩, trivial⟩
  have watched := Likeness.call_watched within.conducted fuel calls alike
  obtain ⟨-, -, outcomes⟩ := watched.kept (Watch.uncut_allows.mpr uncut)
  change Vm.enter (call fuel f arguments none 0) _ = match Vm.enter (call fuel f arguments none 0) m with
    | .ok results after => _
    | .error halt after => _
  unfold Vm.enter
  simp only [Invocation.run] at outcomes
  generalize call fuel f arguments none 0 m.enter = p at *
  generalize call fuel f arguments none 0 (m.limited wider m.steps).enter = q at *
  cases outcomes with
  | ok alike same =>
      obtain ⟨_, _, rfl, ⟨-, rfl, -⟩, -⟩ := alike
      cases whole.lists.mp same
      rfl
  | error halt alike =>
      obtain ⟨_, _, rfl, ⟨-, rfl, -⟩, -⟩ := alike
      rfl

/-- A native that is called is in the heap. -/
theorem Point.Calls.found {point : Point} {n : Native} (calls : point.Calls n)
    : ∃ handle, point.machine.heap.natives.get handle = .ok n := by
  have reaches {f : Value} (reaches : point.machine.Reaches f n)
      : ∃ handle, point.machine.heap.natives.get handle = .ok n := by
    obtain ⟨ref, after, resolved, found⟩ := reaches
    rw [Vm.resolve_eq] at resolved
    rcases Vm.followRedirects_cases point.machine _ f with
      ⟨_, _, _, _, _, ran⟩ | ⟨_, _, ran⟩ | ⟨_, _, _, _, _, _, ran⟩
    all_goals
      rw [ran] at resolved
      cases resolved
    exact ⟨ref.handle, found⟩
  obtain ⟨mark, m⟩ := point
  cases mark with
  | called call => exact reaches calls
  | executes frame i => exact reaches calls.2
  | failed | asks | answered | entered | left => exact calls.elim

/-- If all natives that are called fail as their calls do, then a call that does not end by a limit
ends the same under wider limits.
-/
theorem Vm.callFromHost_of_wider {m : Machine} (within : m.config.limits.Within wider)
    (fuel : Nat) {f : Value} {arguments : List Value}
    (propagates
      : ∀ point ∈ callTrace fuel { f, arguments, caller := none, depth := 0 } m.enter,
        ∀ n, point.Calls n → n.Propagates)
    (uncut : ∀ fault after, callFromHost (call fuel) f arguments m = .error (.failed fault) after
      → fault.isLimit = false)
    : callFromHost (call fuel) f arguments (m.limited wider m.steps)
      = match callFromHost (call fuel) f arguments m with
        | .ok results after => .ok results (after.limited wider after.steps)
        | .error halt after => .error halt (after.limited wider after.steps) := by
  refine callFromHost_uncut within fuel fun point member fault failed => ?_
  obtain ⟨mark, now⟩ := point
  cases failed
  obtain ⟨after, ran⟩ := (call_passing fuel _ m.enter).faults propagates fault now member
  refine uncut fault (after.leave m.steps) ?_
  change Vm.enter (call fuel f arguments none 0) m = _
  simp only [Vm.enter, show call fuel f arguments none 0 m.enter = _ from ran]

private def Native.isWrapper (n : Native) : Bool :=
  match n.body with
  | .wrapper _ => true
  | _ => false

/-- Whether a call returns nil and nothing else. -/
private def Vm.returnsNil : EStateM.Result (Halt ε) Machine (List Value) → Bool
  | .ok [.nil] _ => true
  | _ => false

private theorem Vm.of_returnsNil {outcome : EStateM.Result (Halt ε) Machine (List Value)}
    (returns : returnsNil outcome = true)
    : ∃ after, outcome = .ok [.nil] after := by
  unfold returnsNil at returns
  split at returns
  · exact ⟨_, rfl⟩
  · cases returns

/-- A closure calls another one through a wrapper, with as many instructions and as deep as the
limits allow.
-/
theorem Vm.callFromHost_of_wider_wrapped
    : ∃ (m : Machine) (wider : Limits) (f : Value) (arguments : List Value) (after : Machine),
        m.config.limits = { callDepth := 2, instructions := 3, redirectDepth := 0 }
        ∧ m.config.limits.Within wider ∧ wider.instructions = 0
        ∧ callFromHost (call 5) f arguments m = .ok [.nil] after
        ∧ callFromHost (call 5) f arguments (m.limited wider m.steps)
          = .ok [.nil] (after.limited wider after.steps) := by
  let limits : Limits := { callDepth := 2, instructions := 3, redirectDepth := 0 }
  let start : Machine := .bare 1 { limits }
  let outer : Array Instruction := #[.abc .call 0 1 2, .abc .ret 0 2 0]
  let inner : Array Instruction := #[.abc .ret 0 2 0]
  let made (prototype : PrototypeRef) : Closure :=
    { prototype, upvalues := #[], environment := start.globals }
  let closure (index : Nat) : Value := .closure ⟨⟨1, index, 0⟩⟩
  let wrapper : Native := { name := "wrapper", body := .wrapper (closure 1), bound := [closure 1] }
  let m : Machine :=
    { start with
      prototypes :=
        ((PrototypeStore.insert {} { code := outer, parameters := 1 }).2.insert
          { code := inner }).2
      heap.closures := ((start.heap.closures.insert (made ⟨0⟩)).2.insert (made ⟨1⟩)).2
      heap.natives := (start.heap.natives.insert wrapper).2 }
  let arguments : List Value := [.native ⟨⟨1, 0, 0⟩⟩]
  let points := callTrace 5 { f := closure 0, arguments, caller := none, depth := 0 } m.enter
  have within : m.config.limits.Within { instructions := 0 } := ⟨by decide, by decide, .inl rfl⟩
  have wrappers
      : points.all (fun point => point.machine.heap.natives.toList.all (·.2.isWrapper)) = true := by
    decide +kernel
  have ends : returnsNil (callFromHost (call 5) (closure 0) arguments m) = true := by
    decide +kernel
  obtain ⟨after, ran⟩ := of_returnsNil ends
  have propagates (point : Point) (member : point ∈ points) (n : Native) (calls : point.Calls n)
      : n.Propagates := by
    obtain ⟨handle, found⟩ := calls.found
    have wrapped := List.all_eq_true.mp (List.all_eq_true.mp wrappers point member) (handle, n)
      (Arena.mem_toList.mpr found)
    unfold Native.Propagates
    cases does : n.body with
    | wrapper inner => trivial
    | script | method | host => simp [Native.isWrapper, does] at wrapped
  have same := callFromHost_of_wider within 5 propagates (fun fault after failed => by
    rw [ran] at failed
    cases failed)
  rw [ran] at same
  exact ⟨m, _, closure 0, arguments, after, rfl, within, rfl, ran, same⟩

end HookMachine
