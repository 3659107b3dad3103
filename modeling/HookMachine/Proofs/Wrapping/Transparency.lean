import HookMachine.Proofs.Collection.Transparency
import HookMachine.Proofs.Execution.Redirects
import HookMachine.Proofs.Hook.Log
import HookMachine.Proofs.Likeness.Deepening

/-!
Wrappers of closures. A call of a wrapper is a call of its closure one level deeper, and so comes to
the same where one more level is allowed. A wrapper passes calls on to the same closure as long as it
exists, and keeps that closure alive; where the calls of the closure go is none of its business.
-/

namespace HookMachine

variable {m : Machine} {w : NativeRef} {n : Native} {f e : Value}

-----------------------------------------------------------------------------------------
-- Calls of wrappers
-----------------------------------------------------------------------------------------

/-- Calls of a native in a machine with one more level for calls come to the same as calls of a value:
to the same results or the same failure in the same machine.
-/
structure Machine.Transparent (m : Machine) (w : NativeRef) (f : Value) : Prop where
  /-- Running code calls, at any depth and with any number of instructions counted. -/
  nested (fuel : Nat) (arguments : List Value) (caller : Option ClosureRef) (depth : Nat)
    : Vm.call (fuel + 2) (.native w) arguments caller depth (m.deeper 1)
      = Vm.sunk 1 (Vm.call (fuel + 1) f arguments caller depth m)
  /-- An entry from the host, which counts instructions from its beginning. -/
  entered (fuel : Nat) (arguments : List Value)
    : Vm.call (fuel + 1) (.native w) arguments none 0 (m.deeper 1).enter
      = Vm.sunk 1 (Vm.call fuel f arguments none 0 m.enter)
  host (fuel : Nat) (arguments : List Value)
    : Vm.callFromHost (Vm.call (fuel + 1)) (.native w) arguments (m.deeper 1)
      = Vm.sunk 1 (Vm.callFromHost (Vm.call fuel) f arguments m)

namespace Vm

variable {fuel depth : Nat} {arguments : List Value} {caller : Option ClosureRef}

/-- A wrapper that may be called calls what it wraps one level deeper. -/
theorem call_wrapper (found : m.heap.natives.get w.handle = .ok n) (wraps : n.body = .wrapper f)
    (le : depth ≤ m.config.limits.callDepth)
    : call (fuel + 1) (.native w) arguments caller depth m
      = call fuel f arguments caller (depth + 1) m := by
  have resolved : resolve (.native w) m = .ok (.native w) m := by
    rw [resolve_eq]
    exact followRedirects_of_stays (show m.Stays (.native w) from trivial) _
  refine (Run.bind_ok (checkDepth_of_le le)).trans ((Run.bind_ok resolved).trans ?_)
  exact callNative_of_wrapper found wraps

/-- Nothing is called beyond the deepest nesting. -/
theorem call_of_lt (lt : m.config.limits.callDepth < depth)
    : call (fuel + 1) f arguments caller depth m = .error (.failed .stackOverflow) m :=
  Run.bind_error (checkDepth_of_lt lt)

/-- Entries from the host go alike if what is done within them does. -/
theorem callFromHost_sunk {g : Value} {shift more : Nat}
    (entered : call more g arguments none 0 (m.deeper shift).enter
      = sunk shift (call fuel f arguments none 0 m.enter))
    : callFromHost (call more) g arguments (m.deeper shift)
      = sunk shift (callFromHost (call fuel) f arguments m) := by
  unfold callFromHost enter
  rw [entered]
  cases call fuel f arguments none 0 m.enter <;> rfl

end Vm

namespace Machine

/-- A wrapper is transparent if no native can tell how deep it is called. -/
theorem transparent_of_wrapper (level : m.Level 1)
    (found : m.heap.natives.get w.handle = .ok n) (wraps : n.body = .wrapper f)
    : m.Transparent w f := by
  have entered (fuel : Nat) (arguments : List Value)
      : Vm.call (fuel + 1) (.native w) arguments none 0 (m.deeper 1).enter
        = Vm.sunk 1 (Vm.call fuel f arguments none 0 m.enter) := by
    rw [Vm.call_wrapper (m := (m.deeper 1).enter) found wraps (Nat.zero_le _)]
    exact Vm.call_deeper (m := m.enter) level fuel f arguments none 0
  refine ⟨fun fuel arguments caller depth => ?_, entered,
    fun fuel arguments => Vm.callFromHost_sunk (entered fuel arguments)⟩
  by_cases le : depth ≤ m.config.limits.callDepth + 1
  · rw [Vm.call_wrapper (m := m.deeper 1) found wraps le]
    exact Vm.call_deeper level (fuel + 1) f arguments caller depth
  · -- Neither call begins, so that fuel plays no part.
    rw [Vm.call_of_lt (m := m.deeper 1) (Nat.not_le.mp le), Vm.call_of_lt (by omega)]
    rfl

/-- A native that is transparent for a closure is so for what calls of the closure reach. -/
theorem Transparent.redirected {hops : Nat} (transparent : m.Transparent w f)
    (chain : m.Hops hops f e) (stays : m.Stays e) (within : hops ≤ m.config.limits.redirectDepth)
    : m.Transparent w e := by
  have alike : m.CallsAlike f e := callsAlike_of_hops chain stays within
  have inside : m.enter.CallsAlike f e :=
    callsAlike_of_hops (chain.of_heap rfl) (stays.of_heap rfl) within
  have entered (fuel : Nat) (arguments : List Value)
      : Vm.call (fuel + 1) (.native w) arguments none 0 (m.deeper 1).enter
        = Vm.sunk 1 (Vm.call fuel e arguments none 0 m.enter) := by
    rw [← inside.nested]
    exact transparent.entered fuel arguments
  refine ⟨fun fuel arguments caller depth => ?_, entered,
    fun fuel arguments => Vm.callFromHost_sunk (entered fuel arguments)⟩
  rw [← alike.nested]
  exact transparent.nested fuel arguments caller depth

end Machine

-----------------------------------------------------------------------------------------
-- The life of a wrapper
-----------------------------------------------------------------------------------------

/-- A wrapper and the closure that it wraps exist, and the closure is what it was but for where its
calls go.
-/
structure Machine.Wraps (m : Machine) (w : NativeRef) (ref : ClosureRef) (c : Closure) : Prop where
  native : ∃ n, m.heap.natives.get w.handle = .ok n ∧ n.body = .wrapper (.closure ref)
    ∧ Value.closure ref ∈ n.bound
  closure : ∃ redirect, m.heap.closures.get ref.handle = .ok { c with redirect }

/-- A closure that exists can be wrapped. -/
theorem Reflection.wrap_of_get {ref : ClosureRef} {c : Closure} (minted : m.heap.Minted)
    (found : m.heap.closures.get ref.handle = .ok c)
    : ∃ w after, wrap (.closure ref) m = .ok (.native w) after ∧ after.Wraps w ref c := by
  have owned : m.heap.owns (.closure ref) = true := by
    simp [Heap.owns, Value.handle?, Arena.heap_of_get found, minted.closures]
  let p := m.prototypes.get c.prototype
  let wrapper : Native :=
    { name := p.name.getD "wrapped", body := .wrapper (.closure ref), bound := [.closure ref] }
  let made := m.heap.natives.insert wrapper
  have named : Vm.functionName (.closure ref) m = .ok p.name m :=
    Run.bind_ok (Vm.closure_of_get found)
  have created : Vm.createNative wrapper m
      = .ok ⟨made.1⟩ { m with heap.natives := made.2 } :=
    (Run.bind_ok ((Run.bind_ok (Vm.checkOwner_of_owns owned)).trans rfl)).trans rfl
  refine ⟨⟨made.1⟩, { m with heap.natives := made.2 }, ?_, ⟨wrapper, ?_, rfl, .head _⟩, c.redirect,
    found⟩
  · exact (Run.bind_ok (Run.lift_ok named)).trans (Run.bind_ok (Run.lift_ok created))
  · exact Arena.get_insert_self m.heap.natives wrapper

/-- Any number of steps by the rules in which an object stays within reach: whenever one of them
collects, the object is kept.
-/
abbrev Rules.StepsKeeping (rules : Rules) (object : ObjectRef) : Situation → Situation → Prop :=
  Relation.ReflTransGen fun s t => rules.Step s t
    ∧ (t.machine = s.machine.collect.2 → s.machine.activeCalls = 0 → s.machine.Keeps object)

namespace Machine.Wraps

variable {rules : Rules} {ref : ClosureRef} {c : Closure} {s t : Situation}

/-- A collection that keeps a wrapper keeps its closure. -/
theorem collect (wraps : m.Wraps w ref c) (unmarked : m.heap.Unmarked)
    (keeps : m.activeCalls = 0 → m.Keeps (.native w))
    : m.collect.2.Wraps w ref c := by
  rcases Nat.eq_zero_or_pos m.activeCalls with idle | busy
  · obtain ⟨⟨n, found, body, bound⟩, redirect, held⟩ := wraps
    have reached := keeps idle
    have closure : m.Keeps (.closure ref) :=
      .step reached (.bound found bound) rfl (Arena.contains_iff.mpr ⟨_, held⟩)
    rw [Machine.collect_of_idle idle]
    exact ⟨⟨n, (Heap.get_natives_collect unmarked).mpr ⟨found, reached⟩, body, bound⟩, redirect,
      (Heap.get_closures_collect unmarked).mpr ⟨held, closure⟩⟩
  · rwa [Machine.collect_of_busy busy]

/-- Wrappers stay what they are in every step that leaves them within reach. -/
theorem step (wraps : s.machine.Wraps w ref c) (sound : rules.SoundSituation s)
    (step : rules.Step s t)
    (keeps : t.machine = s.machine.collect.2 → s.machine.activeCalls = 0
      → s.machine.Keeps (.native w))
    : t.machine.Wraps w ref c := by
  rcases sound.kept step with ⟨_, kept⟩ | heap | collected
  · obtain ⟨⟨n, found, body, bound⟩, redirect, held⟩ := wraps
    obtain ⟨redirect, held⟩ := kept.later.closure held
    exact ⟨⟨n, kept.natives found, body, bound⟩, redirect, held⟩
  · exact ⟨heap ▸ wraps.native, heap ▸ wraps.closure⟩
  · rw [collected]
    exact wraps.collect sound.sound.unmarked (keeps collected)

/-- Wrappers stay what they are as long as they are within reach, by induction over the steps. -/
theorem steps (wraps : s.machine.Wraps w ref c) (sound : rules.SoundSituation s)
    (steps : rules.StepsKeeping (.native w) s t)
    : t.machine.Wraps w ref c ∧ rules.SoundSituation t := by
  induction steps with
  | refl => exact ⟨wraps, sound⟩
  | tail _ step ih =>
      obtain ⟨wraps, sound⟩ := ih
      exact ⟨wraps.step sound step.1 step.2, sound.step step.1⟩

end Machine.Wraps

-----------------------------------------------------------------------------------------
-- Hooks
-----------------------------------------------------------------------------------------

namespace Machine

variable {ref : ClosureRef} {c : Closure} {replacement : Value}

theorem natives_hooked (m : Machine) (ref : ClosureRef) (c : Closure) (replacement : Value)
    : (m.hooked ref c replacement).heap.natives = m.heap.natives := by
  simp only [hooked, natives_letGoAll]
  rfl

theorem config_hooked (m : Machine) (ref : ClosureRef) (c : Closure) (replacement : Value)
    : (m.hooked ref c replacement).config = m.config := by
  simp only [hooked, config_letGoAll]
  rfl

/-- Calls of a closure that was hooked go to its replacement first. -/
theorem Hops.hooked {hops : Nat} (found : m.heap.closures.get ref.handle = .ok c)
    (chain : (m.hooked ref c replacement).Hops hops replacement e)
    : (m.hooked ref c replacement).Hops (hops + 1) (.closure ref) e := by
  refine .hop (get_hooked.mpr ⟨c, Arena.get_insert_of_get _ found, rfl⟩) ?_ chain
  simp

/-- In a machine whose natives make no calls but within the running one, a wrapper is transparent for
a closure, and for its replacement once the closure is hooked.
-/
structure Wrapped (allows : HostFunction → Prop) (m : Machine) (w : NativeRef) (ref : ClosureRef)
    (c : Closure) : Prop where
  wraps : m.Wraps w ref c
  calls : m.Employs allows → m.Transparent w (.closure ref)
  hooked {replacement e copy after hops}
    : m.Employs allows → Hook.install (.closure ref) replacement m = .ok (some copy) after
      → after.Hops hops replacement e → after.Stays e → hops < m.config.limits.redirectDepth
      → after.Transparent w e

theorem Wraps.wrapped {allows : HostFunction → Prop}
    (contained : ∀ f, allows f → HostFunction.Within allows (fun r => r.enters = false) f)
    (wraps : m.Wraps w ref c) (minted : m.heap.Minted)
    : m.Wrapped allows w ref c := by
  obtain ⟨⟨n, found, body, -⟩, redirect, held⟩ := id wraps
  refine ⟨wraps, fun employs => ?_, fun {replacement e _ _ _} employs hooked chain stays lt => ?_⟩
  · exact transparent_of_wrapper (level_of_contained contained employs 1) found body
  · obtain ⟨-, rfl⟩ := Hook.eq_of_install minted held hooked
    have level : m.Level 1 := level_of_contained contained employs 1
    have natives := m.natives_hooked ref { c with redirect } replacement
    have transparent := transparent_of_wrapper
      (fun there => level (natives ▸ there)) (natives.symm ▸ found) body
    refine transparent.redirected (chain.hooked held) stays ?_
    rw [config_hooked]
    exact lt

end Machine

-----------------------------------------------------------------------------------------
-- Wrapping
-----------------------------------------------------------------------------------------

/-- With natives that enter the machine through nothing but calls within the running one, every wrapper
is transparent in every machine. In whatever situation a closure is wrapped: as long as the wrapper is
within reach it wraps that closure, which exists, and hooks of the closure take effect through it. A
native is its own wrapper.
-/
theorem Situation.wrapped_of_wrap {allows : HostFunction → Prop}
    (contained : ∀ f, allows f → HostFunction.Within allows (fun r => r.enters = false) f)
    : (∀ (m : Machine) (w : NativeRef) (n : Native) (f : Value), m.Employs allows
        → m.heap.natives.get w.handle = .ok n → n.body = .wrapper f → m.Transparent w f)
      ∧ (∀ (start : Situation) (ref : ClosureRef) (c : Closure), start.Reached
        → start.machine.heap.closures.get ref.handle = .ok c
        → ∃ w after, Reflection.wrap (.closure ref) start.machine = .ok (.native w) after
          ∧ ∀ t, Rules.lax.StepsKeeping (.native w) ⟨after, start.stack, start.mine⟩ t
            → t.machine.Wrapped allows w ref c)
      ∧ ∀ (w : NativeRef) (m : Machine), Reflection.wrap (.native w) m = .ok (.native w) m := by
  refine ⟨fun m w n f employs found wraps => ?_, fun start ref c reached found => ?_, fun _ _ => rfl⟩
  · exact Machine.transparent_of_wrapper (Machine.level_of_contained contained employs 1) found wraps
  have sound := reached.sound
  obtain ⟨w, after, wrapped, wraps⟩ := Reflection.wrap_of_get sound.sound.minted found
  refine ⟨w, after, wrapped, fun t steps => ?_⟩
  have permits : Rules.lax.Permits start.machine start.mine (.wrap (.closure ref)) :=
    ⟨fun _ _ careful => careful.elim, by simp [Request.prototypes], fun _ _ _ => trivial,
      by simp [Request.frees?]⟩
  have made := sound.step (@Rules.Step.answered Rules.lax _ _ _ _ 0 _ _ permits wrapped)
  obtain ⟨wraps, sound⟩ := wraps.steps made steps
  exact wraps.wrapped contained sound.sound.minted

namespace Situation

/-- A function of the host that calls what it is given, and answers false if the call fails. -/
private def relay : HostFunction := fun _ arguments =>
  .call (arguments.headD .nil) [] fun
    | .ok results => .finish results
    | .error _ => .finish [.boolean false]

private def relays (f : HostFunction) : Prop :=
  f = relay

private theorem relays_contained (f : HostFunction) (same : relays f)
    : HostFunction.Within relays (fun r => r.enters = false) f := by
  obtain rfl : f = relay := same
  refine fun _ _ => .call fun outcome => ?_
  cases outcome with
  | ok results => exact .finish results
  | error fault => exact .finish _

/-- A runtime that allows one call within another, where the code of a closure is known that has its
first argument called with its second.
-/
private def compiled : Machine :=
  let code : Array Instruction := #[.abc .call 0 2 2, .abc .ret 0 2 0]
  (Machine.create 1 { limits := { callDepth := 1 } }).served [.assemble { code, parameters := 2 }]

/-- The runtime with that closure. -/
private def instantiated : Machine :=
  (serve (Vm.call 0) (.instantiate ⟨0⟩ none)).leaves compiled

private theorem compiled_reached : Reached ⟨compiled, [], []⟩ :=
  Reached.served rfl ⟨1, { limits := { callDepth := 1 } }, .refl⟩

private theorem instantiated_reached : Reached ⟨instantiated, [], []⟩ := by
  refine compiled_reached.request (fun ref member => ?_) rfl fun _ _ => rfl
  cases List.mem_singleton.mp member
  decide +kernel

/-- A native that relays calls. -/
private def relaying : Native :=
  { name := "relay", body := .host relay }

/-- The runtime with that native besides. -/
private def employing : Machine :=
  (Vm.createNative relaying).leaves instantiated

private theorem employing_reached : Reached ⟨employing, [], []⟩ := by
  have valid (m : Machine) (value : Value) : Rules.lax.Valid m value := fun careful => careful.elim
  refine instantiated_reached.step (.worked (.created (by simp) ?_))
  intro caller arguments m _ _ _
  refine ⟨fun value _ => valid m value, fun after outcome _ _ => ?_⟩
  cases outcome with
  | ok results => exact fun value _ => valid after value
  | error fault => exact fun value _ => valid after value

/-- Whether a native runs a function of the host. -/
private def runsHost (n : Native) : Bool :=
  match n.body with
  | .host _ => true
  | _ => false

private theorem employing_employs : employing.Employs relays := by
  have scripts : instantiated.heap.natives.toList.all (!runsHost ·.2) = true := by
    decide +kernel
  have made (m : Machine) : ((Vm.createNative relaying).leaves m).heap.natives
      = (m.heap.natives.insert relaying).2 :=
    rfl
  intro handle n found f body
  rw [employing, made] at found
  rcases Arena.get_insert.mp found with ⟨-, rfl⟩ | found
  · cases body
    rfl
  · have test := List.all_eq_true.mp scripts (handle, n) (Arena.mem_toList.mpr found)
    simp [runsHost, body] at test

/-- Whether a closure is wrapped where calls may be nested once, and a call of it returns false. -/
private def relaysFalse (ref : ClosureRef) (arguments : List Value)
    : EStateM.Result (Halt Failure) Machine Value → Bool
  | .ok _ after =>
      match Vm.callFromHost (Vm.call 5) (.closure ref) arguments after with
      | .ok [.boolean false] _ => after.config.limits.callDepth == 1
      | _ => false
  | _ => false

private theorem of_relaysFalse {ref : ClosureRef} {arguments : List Value} {value : Value}
    {after : Machine} (ends : relaysFalse ref arguments (.ok value after) = true)
    : ∃ last, after.config.limits.callDepth = 1
        ∧ Vm.callFromHost (Vm.call 5) (.closure ref) arguments after = .ok [.boolean false] last := by
  unfold relaysFalse at ends
  dsimp only at ends
  split at ends
  · exact ⟨_, by simpa using ends, by assumption⟩
  · cases ends

/-- A closure has itself called by a native, which is one level too deep for it; so it is when a wrapper
of the closure is called in the closure's place and one more level is allowed.
-/
theorem wrapped_of_wrap_relayed
    : ∃ (start : Situation) (ref : ClosureRef) (w : NativeRef) (arguments : List Value)
        (after last : Machine),
        start.Reached ∧ after.config.limits.callDepth = 1
        ∧ Reflection.wrap (.closure ref) start.machine = .ok (.native w) after
        ∧ Vm.callFromHost (Vm.call 5) (.closure ref) arguments after = .ok [.boolean false] last
        ∧ Vm.callFromHost (Vm.call 6) (.native w) arguments (after.deeper 1)
          = .ok [.boolean false] (last.deeper 1) := by
  let ref : ClosureRef := ⟨⟨1, 0, 0⟩⟩
  let arguments : List Value := [.native ⟨(instantiated.heap.natives.insert relaying).1⟩, .closure ref]
  obtain ⟨m, reached, employs, live, ends⟩
      : ∃ m, Reached ⟨m, [], []⟩ ∧ m.Employs relays ∧ m.heap.closures.contains ref.handle = true
          ∧ relaysFalse ref arguments (Reflection.wrap (.closure ref) m) = true :=
    ⟨employing, employing_reached, employing_employs, by decide +kernel, by decide +kernel⟩
  obtain ⟨c, found⟩ := Arena.contains_iff.mp live
  obtain ⟨-, wraps, -⟩ := wrapped_of_wrap relays_contained
  obtain ⟨w, after, wrapped, goes⟩ := wraps _ ref c reached found
  rw [wrapped] at ends
  obtain ⟨last, depth, ran⟩ := of_relaysFalse ends
  let regime : Regime := { config := m.config, allows := relays }
  have idle : regime.Idle (Reflection.wrap (.closure ref)) := Reflection.wrap_idle _
  have idles := idle.outcome m ⟨rfl, employs⟩
  rw [wrapped] at idles
  have transparent := (goes _ .refl).calls fun found => idles.1.governs.employs found
  refine ⟨_, ref, w, arguments, after, last, reached, depth, wrapped, ran, ?_⟩
  rw [transparent.host, ran]
  rfl

end Situation
end HookMachine
