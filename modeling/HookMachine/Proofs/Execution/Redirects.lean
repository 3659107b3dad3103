import HookMachine.Host
import HookMachine.Proofs.Execution.Outcomes
import HookMachine.Proofs.Execution.Recursion

/-!
Redirects. What a call reaches depends on nothing but the chain of redirects that starts at what
is called: by every way in which calls come about, a call goes as one of the end of the chain
would, and a chain that is too long fails before anything runs.
-/

namespace HookMachine

namespace Machine

/-- A chain of redirects between closures that exist, with its number of hops. -/
inductive Hops (m : Machine) : Nat → Value → Value → Prop
  | none (f : Value) : Hops m 0 f f
  | hop {hops ref c next last} (found : m.heap.closures.get ref.handle = .ok c)
    (redirect : c.redirect = some next) (rest : Hops m hops next last)
    : Hops m (hops + 1) (.closure ref) last

/-- Calls of a value go nowhere else: it is no closure, or one that exists without a redirect. -/
def Stays (m : Machine) : Value → Prop
  | .closure ref => ∃ c, m.heap.closures.get ref.handle = .ok c ∧ c.redirect = none
  | _ => True

/-- The chain of redirects from a value is longer than the limit allows, or runs in a circle. -/
def Strays (m : Machine) (f : Value) : Prop :=
  (∃ g, m.Hops (m.config.limits.redirectDepth + 1) f g)
    ∨ ∃ before around g, m.Hops before f g ∧ m.Hops (around + 1) g g

/-- Calls of `f` that come about in a machine are calls of `e`, by every way in which they come
about.
-/
structure CallsAlike (m : Machine) (f e : Value) : Prop where
  /-- Running code calls. -/
  nested (fuel : Nat) (arguments : List Value) (caller : Option ClosureRef) (depth : Nat)
    : Vm.call fuel f arguments caller depth m = Vm.call fuel e arguments caller depth m
  host (fuel : Nat) (arguments : List Value)
    : serve (Vm.call fuel) (.call f arguments) m = serve (Vm.call fuel) (.call e arguments) m
  /-- An instruction calls, in tail position or not. -/
  instruction {fuel steps top callers before frame arguments resume}
    : Vm.step (Vm.call fuel) top.frame before = .ok (.call frame f arguments resume) m
      → Vm.runFrames (Vm.call fuel) (steps + 1) top callers before
        = Vm.enterCall (Vm.call fuel) steps e arguments (some frame.closure) (frame.depth + 1)
            resume ({ top with frame } :: callers) m
  /-- A metatable handles reading. -/
  index {fuel ref t key depth limit}
    : m.heap.tables.get ref.handle = .ok t → t.get? key = none
      → Vm.handler t "__index" m = .ok f m → f.isFunction = true
      → Vm.indexChain (Vm.call fuel) key depth (limit + 1) (.table ref) m
        = (do
            let results ← Vm.call fuel e [.table ref, key] none (depth + 1)
            return results.headD .nil : Vm Value) m
  /-- A metatable handles writing. -/
  assign {fuel ref t key value depth limit}
    : m.heap.tables.get ref.handle = .ok t → m.heap.owns value = true
      → Vm.writeHandler t key m = .ok f m → f.isFunction = true
      → Vm.assignChain (Vm.call fuel) key value depth (limit + 1) (.table ref) m
        = (do let _ ← Vm.call fuel e [.table ref, key, value] none (depth + 1) : Vm Unit) m
  /-- A metatable handles calls. -/
  callHandler {fuel ref arguments caller depth}
    : Vm.metamethod (.table ref) "__call" m = .ok f m → f.isFunction = true
      → Vm.callOther (Vm.call fuel) (.table ref) arguments caller depth m
        = Vm.call fuel e (.table ref :: arguments) caller (depth + 1) m
  /-- A function of the host calls. -/
  program (fuel : Nat) (arguments : List Value) (next : Except Fault (List Value) → HostProgram)
    (caller : Option ClosureRef) (depth : Nat)
    : Vm.runProgram (Vm.call fuel) (Vm.call fuel · · caller depth) (.call f arguments next) m
      = Vm.runProgram (Vm.call fuel) (Vm.call fuel · · caller depth) (.call e arguments next) m
  /-- A wrapper passes a call on. -/
  wrapper {fuel ref n arguments caller depth}
    : m.heap.natives.get ref.handle = .ok n → n.body = .wrapper f
      → Vm.callNative (Vm.call fuel) ref arguments caller depth m
        = Vm.call fuel e arguments caller (depth + 1) m
  /-- The host fires a connection. -/
  fired {fuel index arguments}
    : ConnectionRegistry.callback? m.connections index = some f
      → Connection.fire (Vm.callFromHost (Vm.call fuel) · arguments) index m
        = (do
            let _ ← Run.attempt (Vm.callFromHost (Vm.call fuel) e arguments)
            return true : Vm Bool) m
  /-- Running code fires a connection. -/
  firedWithin {fuel index arguments caller depth}
    : ConnectionRegistry.callback? m.connections index = some f
      → Connection.fire (Vm.call fuel · arguments caller depth) index m
        = (do
            let _ ← Run.attempt (Vm.call fuel e arguments caller depth)
            return true : Vm Bool) m

/-- Calls of `f` that come about in a machine within its depth limit fail before anything runs, by
every way in which they come about.
-/
structure CallsFail (m : Machine) (f : Value) : Prop where
  nested {fuel arguments caller depth}
    : depth ≤ m.config.limits.callDepth
      → Vm.call (fuel + 1) f arguments caller depth m = .error (.failed .redirectChain) m
  host (fuel : Nat) (arguments : List Value)
    : serve (Vm.call (fuel + 1)) (.call f arguments) m
      = .error (.failed (.fault .redirectChain)) m
  instruction {fuel steps top callers before frame arguments resume}
    : Vm.step (Vm.call fuel) top.frame before = .ok (.call frame f arguments resume) m
      → frame.depth + 1 ≤ m.config.limits.callDepth
      → Vm.runFrames (Vm.call fuel) (steps + 1) top callers before
        = .error (.failed .redirectChain) m
  index {fuel ref t key depth limit}
    : m.heap.tables.get ref.handle = .ok t → t.get? key = none
      → Vm.handler t "__index" m = .ok f m → f.isFunction = true
      → depth + 1 ≤ m.config.limits.callDepth
      → Vm.indexChain (Vm.call (fuel + 1)) key depth (limit + 1) (.table ref) m
        = .error (.failed .redirectChain) m
  assign {fuel ref t key value depth limit}
    : m.heap.tables.get ref.handle = .ok t → m.heap.owns value = true
      → Vm.writeHandler t key m = .ok f m → f.isFunction = true
      → depth + 1 ≤ m.config.limits.callDepth
      → Vm.assignChain (Vm.call (fuel + 1)) key value depth (limit + 1) (.table ref) m
        = .error (.failed .redirectChain) m
  callHandler {fuel ref arguments caller depth}
    : Vm.metamethod (.table ref) "__call" m = .ok f m → f.isFunction = true
      → depth + 1 ≤ m.config.limits.callDepth
      → Vm.callOther (Vm.call (fuel + 1)) (.table ref) arguments caller depth m
        = .error (.failed .redirectChain) m
  /-- The function of the host is told and goes on. -/
  program {fuel arguments next caller depth}
    : depth ≤ m.config.limits.callDepth
      → Vm.runProgram (Vm.call (fuel + 1)) (Vm.call (fuel + 1) · · caller depth)
          (.call f arguments next) m
        = Vm.runProgram (Vm.call (fuel + 1)) (Vm.call (fuel + 1) · · caller depth)
            (next (.error .redirectChain)) m
  wrapper {fuel ref n arguments caller depth}
    : m.heap.natives.get ref.handle = .ok n → n.body = .wrapper f
      → depth + 1 ≤ m.config.limits.callDepth
      → Vm.callNative (Vm.call (fuel + 1)) ref arguments caller depth m
        = .error (.failed .redirectChain) m
  /-- A callback that fails does so silently. -/
  fired {fuel index arguments}
    : ConnectionRegistry.callback? m.connections index = some f
      → Connection.fire (Vm.callFromHost (Vm.call (fuel + 1)) · arguments) index m = .ok true m
  firedWithin {fuel index arguments caller depth}
    : ConnectionRegistry.callback? m.connections index = some f
      → depth ≤ m.config.limits.callDepth
      → Connection.fire (Vm.call (fuel + 1) · arguments caller depth) index m = .ok true m

end Machine

variable {m before : Machine} {f g h : Value} {hops more : Nat}

-----------------------------------------------------------------------------------------
-- Chains of redirects
-----------------------------------------------------------------------------------------

namespace Machine.Hops

theorem trans (first : m.Hops hops f g) (rest : m.Hops more g h) : m.Hops (hops + more) f h := by
  induction first with
  | none => rwa [Nat.zero_add]
  | hop found redirect _ ih =>
      rw [Nat.add_right_comm]
      exact .hop found redirect (ih rest)

/-- A chain starts with chains of fewer hops, by induction over the hops. -/
theorem take (chain : m.Hops hops f g) (le : more ≤ hops) : ∃ h, m.Hops more f h := by
  induction chain generalizing more with
  | none =>
      obtain rfl := Nat.le_zero.mp le
      exact ⟨_, .none _⟩
  | hop found redirect _ ih =>
      cases more with
      | zero => exact ⟨_, .none _⟩
      | succ more =>
          obtain ⟨h, rest⟩ := ih (Nat.le_of_succ_le_succ le)
          exact ⟨h, .hop found redirect rest⟩

/-- A circle goes on for as many hops as one likes. -/
theorem circle (around : m.Hops (more + 1) g g) (hops : Nat) : ∃ h, m.Hops hops g h := by
  have rounds (n : Nat) : ∃ total, n ≤ total ∧ m.Hops total g g := by
    induction n with
    | zero => exact ⟨0, Nat.le_refl 0, .none g⟩
    | succ n ih =>
        obtain ⟨total, le, chain⟩ := ih
        exact ⟨total + (more + 1), by omega, chain.trans around⟩
  obtain ⟨total, le, chain⟩ := rounds hops
  exact chain.take le

end Machine.Hops

/-- A value stays where it is, goes on by a redirect, or is a closure that does not exist. -/
theorem Machine.stays_or (m : Machine) (f : Value)
    : m.Stays f
      ∨ (∃ ref c next, f = .closure ref ∧ m.heap.closures.get ref.handle = .ok c
          ∧ c.redirect = some next)
      ∨ ∃ ref miss, f = .closure ref ∧ m.heap.closures.get ref.handle = .error miss := by
  cases f with
  | closure ref =>
      cases found : m.heap.closures.get ref.handle with
      | error miss => exact .inr (.inr ⟨ref, miss, rfl, found⟩)
      | ok c =>
          cases redirect : c.redirect with
          | none => exact .inl ⟨c, found, redirect⟩
          | some next => exact .inr (.inl ⟨ref, c, next, rfl, found, redirect⟩)
  | _ => exact .inl trivial

/-- A chain that strays has more hops than the limit allows. -/
theorem Machine.Strays.long (strays : m.Strays f)
    : ∃ g, m.Hops (m.config.limits.redirectDepth + 1) f g := by
  obtain long | ⟨ahead, around, g, first, circle⟩ := strays
  · exact long
  · obtain ⟨h, rest⟩ := circle.circle (m.config.limits.redirectDepth + 1)
    exact (first.trans rest).take (Nat.le_add_left ..)

namespace Vm

-----------------------------------------------------------------------------------------
-- Following a chain
-----------------------------------------------------------------------------------------

theorem followRedirects_of_stays (stays : m.Stays f) (limit : Nat)
    : followRedirects limit f m = .ok f m := by
  cases f with
  | closure ref =>
      obtain ⟨c, found, redirect⟩ := stays
      rw [followRedirects]
      refine (Run.bind_ok (closure_of_get found)).trans ?_
      rw [redirect]
      rfl
  | _ => cases limit <;> rfl

theorem followRedirects_of_miss {ref : ClosureRef} {miss : Miss}
    (missed : m.heap.closures.get ref.handle = .error miss) (limit : Nat)
    : followRedirects limit (.closure ref) m = .error (.failed (.ofMiss miss)) m := by
  rw [followRedirects]
  exact Run.bind_error (closure_of_miss missed)

theorem followRedirects_succ {ref : ClosureRef} {c : Closure} {next : Value}
    (found : m.heap.closures.get ref.handle = .ok c) (redirect : c.redirect = some next)
    (limit : Nat)
    : followRedirects (limit + 1) (.closure ref) m = followRedirects limit next m := by
  rw [followRedirects]
  refine (Run.bind_ok (closure_of_get found)).trans ?_
  rw [redirect]

theorem followRedirects_zero {ref : ClosureRef} {c : Closure} {next : Value}
    (found : m.heap.closures.get ref.handle = .ok c) (redirect : c.redirect = some next)
    : followRedirects 0 (.closure ref) m = .error (.failed .redirectChain) m := by
  rw [followRedirects]
  refine (Run.bind_ok (closure_of_get found)).trans ?_
  rw [redirect]
  rfl

/-- A chain within the limit is followed to its end, by induction over its hops. -/
theorem followRedirects_of_hops (chain : m.Hops hops f g) (stays : m.Stays g) {limit : Nat}
    (within : hops ≤ limit)
    : followRedirects limit f m = .ok g m := by
  induction chain generalizing limit with
  | none => exact followRedirects_of_stays stays limit
  | hop found redirect _ ih =>
      obtain ⟨limit, rfl⟩ := Nat.exists_eq_add_of_le' (Nat.lt_of_lt_of_le (Nat.succ_pos _) within)
      rw [followRedirects_succ found redirect]
      exact ih stays (Nat.le_of_succ_le_succ within)

/-- A chain beyond the limit is given up, by induction over the limit. -/
theorem followRedirects_of_long {limit : Nat} (long : m.Hops (limit + 1) f g)
    : followRedirects limit f m = .error (.failed .redirectChain) m := by
  induction limit generalizing f with
  | zero =>
      cases long with
      | hop found redirect _ => exact followRedirects_zero found redirect
  | succ limit ih =>
      cases long with
      | hop found redirect rest =>
          rw [followRedirects_succ found redirect]
          exact ih rest

/-- Following a chain ends, in the machine as it was: with the end of the chain, at the limit, or
at a closure that does not exist.
-/
theorem followRedirects_cases (m : Machine) (limit : Nat) (f : Value)
    : (∃ hops g, hops ≤ limit ∧ m.Hops hops f g ∧ m.Stays g
          ∧ followRedirects limit f m = .ok g m)
      ∨ (∃ g, m.Hops (limit + 1) f g
          ∧ followRedirects limit f m = .error (.failed .redirectChain) m)
      ∨ ∃ hops ref miss, hops ≤ limit ∧ m.Hops hops f (.closure ref)
          ∧ m.heap.closures.get ref.handle = .error miss
          ∧ followRedirects limit f m = .error (.failed (.ofMiss miss)) m := by
  induction limit generalizing f with
  | zero =>
      rcases m.stays_or f with stays | ⟨ref, c, next, rfl, found, redirect⟩ | ⟨ref, miss, rfl, missed⟩
      · exact .inl ⟨0, f, Nat.le_refl 0, .none f, stays, followRedirects_of_stays stays 0⟩
      · refine .inr (.inl ⟨next, .hop found redirect (.none next), ?_⟩)
        exact followRedirects_zero found redirect
      · refine .inr (.inr ⟨0, ref, miss, Nat.le_refl 0, .none _, missed, ?_⟩)
        exact followRedirects_of_miss missed 0
  | succ limit ih =>
      rcases m.stays_or f with stays | ⟨ref, c, next, rfl, found, redirect⟩ | ⟨ref, miss, rfl, missed⟩
      · refine .inl ⟨0, f, Nat.zero_le _, .none f, stays, ?_⟩
        exact followRedirects_of_stays stays (limit + 1)
      · rw [followRedirects_succ found redirect]
        rcases ih next with
          ⟨hops, g, within, chain, stays, ran⟩ | ⟨g, long, ran⟩
            | ⟨hops, last, miss, within, chain, missed, ran⟩
        · exact .inl ⟨hops + 1, g, Nat.succ_le_succ within, .hop found redirect chain, stays, ran⟩
        · exact .inr (.inl ⟨g, .hop found redirect long, ran⟩)
        · exact .inr (.inr ⟨hops + 1, last, miss, Nat.succ_le_succ within,
            .hop found redirect chain, missed, ran⟩)
      · refine .inr (.inr ⟨0, ref, miss, Nat.zero_le _, .none _, missed, ?_⟩)
        exact followRedirects_of_miss missed (limit + 1)

/-- What is called in the place of a value; nothing changes while that is found out. -/
theorem resolve_eq (m : Machine) (f : Value)
    : resolve f m = followRedirects m.config.limits.redirectDepth f m :=
  Run.bind_get ..

-----------------------------------------------------------------------------------------
-- The ways in which calls come about
-----------------------------------------------------------------------------------------

theorem checkDepth_of_le {depth : Nat} (le : depth ≤ m.config.limits.callDepth)
    : checkDepth depth m = .ok () m := by
  refine (Run.bind_get ..).trans ?_
  rw [if_neg (Nat.not_lt.mpr le)]
  rfl

theorem checkDepth_of_lt {depth : Nat} (lt : m.config.limits.callDepth < depth)
    : checkDepth depth m = .error (.failed .stackOverflow) m := by
  refine (Run.bind_get ..).trans ?_
  rw [if_pos lt]
  rfl

variable {invoke : Invoke} {ref : TableRef} {t : Table} {key value : Value} {fuel depth limit : Nat}
  {arguments : List Value} {caller : Option ClosureRef} {resume : Resume} {callers : List Layer}

/-- Calling is the same for values that resolve to the same. -/
theorem enterCall_congr (same : resolve f m = resolve g m)
    : enterCall invoke fuel f arguments caller depth resume callers m
      = enterCall invoke fuel g arguments caller depth resume callers m := by
  by_cases le : depth ≤ m.config.limits.callDepth
  · have checked := checkDepth_of_le le
    refine (Run.bind_ok checked).trans (Eq.trans ?_ (Run.bind_ok checked).symm)
    exact Run.bind_congr same
  · have refused := checkDepth_of_lt (Nat.not_le.mp le)
    exact (Run.bind_error refused).trans (Run.bind_error refused).symm

/-- Calling what does not resolve fails before anything runs. -/
theorem enterCall_of_error {fault : Fault} (le : depth ≤ m.config.limits.callDepth)
    (failed : resolve f m = .error (.failed fault) m)
    : enterCall invoke fuel f arguments caller depth resume callers m
      = .error (.failed fault) m :=
  (Run.bind_ok (checkDepth_of_le le)).trans (Run.bind_error failed)

/-- An instruction that calls goes on with the call. -/
theorem runFrames_of_call {steps : Nat} {top : Layer} {frame : Frame}
    (stepped : step invoke top.frame before = .ok (.call frame f arguments resume) m)
    : runFrames invoke (steps + 1) top callers before
      = enterCall invoke steps f arguments (some frame.closure) (frame.depth + 1) resume
          ({ top with frame } :: callers) m := by
  rw [runFrames_succ]
  exact Run.bind_ok stepped

/-- A function that handles reading is called for what is not there. -/
theorem indexChain_of_function (found : m.heap.tables.get ref.handle = .ok t)
    (absent : t.get? key = none) (handled : handler t "__index" m = .ok f m)
    (function : f.isFunction = true)
    : indexChain invoke key depth (limit + 1) (.table ref) m
      = (do
          let results ← invoke f [.table ref, key] none (depth + 1)
          return results.headD .nil : Vm Value) m := by
  have some : f.isNil = false := by
    cases f <;> trivial
  refine (Run.bind_ok (table_of_get found)).trans ?_
  rw [absent]
  refine (Run.bind_ok handled).trans ?_
  rw [some, function]
  rfl

/-- A function that handles writing is called for what is not there. -/
theorem assignChain_of_function (found : m.heap.tables.get ref.handle = .ok t)
    (owned : m.heap.owns value = true) (handled : writeHandler t key m = .ok f m)
    (function : f.isFunction = true)
    : assignChain invoke key value depth (limit + 1) (.table ref) m
      = (do let _ ← invoke f [.table ref, key, value] none (depth + 1) : Vm Unit) m := by
  have some : f.isNil = false := by
    cases f <;> trivial
  refine (Run.bind_ok (checkOwner_of_owns owned)).trans ?_
  refine (Run.bind_ok (table_of_get found)).trans ?_
  refine (Run.bind_ok handled).trans ?_
  rw [some, function]
  rfl

/-- A function that handles calls of a table is called with the table in front. -/
theorem callOther_of_function (handled : metamethod (.table ref) "__call" m = .ok f m)
    (function : f.isFunction = true)
    : callOther invoke (.table ref) arguments caller depth m
      = invoke f (.table ref :: arguments) caller (depth + 1) m := by
  refine (Run.bind_ok handled).trans ?_
  rw [function]
  rfl

theorem callNative_of_wrapper {ref : NativeRef} {n : Native}
    (found : m.heap.natives.get ref.handle = .ok n) (wraps : n.body = .wrapper f)
    : callNative invoke ref arguments caller depth m
      = invoke f arguments caller (depth + 1) m := by
  refine (Run.bind_ok (native_of_get found)).trans ?_
  rw [wraps]

end Vm

theorem Connection.fire_of_callback {run : Value → Vm (List Value)} {index : Nat}
    (callback : ConnectionRegistry.callback? m.connections index = some f)
    : fire run index m
      = (do
          let _ ← Run.attempt (run f)
          return true : Vm Bool) m := by
  refine (Run.bind_get ..).trans ?_
  rw [callback]

-----------------------------------------------------------------------------------------
-- Calls that follow redirects
-----------------------------------------------------------------------------------------

/-- Calls go as those of a value that resolves to the same. -/
theorem Machine.callsAlike_of_resolve (same : ∀ after : Machine, after.heap = m.heap
    → after.config = m.config → Vm.resolve f after = Vm.resolve g after)
    : m.CallsAlike f g := by
  have nested (fuel : Nat) (arguments : List Value) (caller : Option ClosureRef) (depth : Nat)
      (after : Machine) (heap : after.heap = m.heap) (config : after.config = m.config)
      : Vm.call fuel f arguments caller depth after = Vm.call fuel g arguments caller depth after := by
    cases fuel with
    | zero => rfl
    | succ fuel =>
        rw [Vm.call_succ, Vm.call_succ]
        exact Vm.enterCall_congr (same after heap config)
  have fromHost (fuel : Nat) (arguments : List Value)
      : Vm.callFromHost (Vm.call fuel) f arguments m
        = Vm.callFromHost (Vm.call fuel) g arguments m := by
    simp only [Vm.callFromHost, Vm.enter, nested fuel arguments none 0 m.enter rfl rfl]
  have nested (fuel : Nat) (arguments : List Value) (caller : Option ClosureRef) (depth : Nat) :=
    nested fuel arguments caller depth m rfl rfl
  exact {
    nested
    host fuel arguments := Run.mapError_congr _ (fromHost fuel arguments)
    instruction stepped :=
      (Vm.runFrames_of_call stepped).trans (Vm.enterCall_congr (same m rfl rfl))
    index found absent handled function :=
      (Vm.indexChain_of_function found absent handled function).trans
        (Run.bind_congr (nested ..))
    assign found owned handled function :=
      (Vm.assignChain_of_function found owned handled function).trans
        (Run.bind_congr (nested ..))
    callHandler handled function :=
      (Vm.callOther_of_function handled function).trans (nested ..)
    program _ _ _ _ _ := Run.bind_congr (Run.attempt_congr (nested ..))
    wrapper found wraps := (Vm.callNative_of_wrapper found wraps).trans (nested ..)
    fired callback :=
      (Connection.fire_of_callback callback).trans
        (Run.bind_congr (Run.attempt_congr (fromHost ..)))
    firedWithin callback :=
      (Connection.fire_of_callback callback).trans
        (Run.bind_congr (Run.attempt_congr (nested ..))) }

/-- Calls of what does not resolve fail. -/
theorem Machine.callsFail_of_resolve (failed : ∀ after : Machine, after.heap = m.heap
    → after.config = m.config
    → Vm.resolve f after = .error (.failed .redirectChain) after)
    : m.CallsFail f := by
  have nested {fuel : Nat} {arguments : List Value} {caller : Option ClosureRef} {depth : Nat}
      {after : Machine} (heap : after.heap = m.heap) (config : after.config = m.config)
      (le : depth ≤ m.config.limits.callDepth)
      : Vm.call (fuel + 1) f arguments caller depth after
        = .error (.failed .redirectChain) after := by
    rw [Vm.call_succ]
    exact Vm.enterCall_of_error (config ▸ le) (failed after heap config)
  have fromHost (fuel : Nat) (arguments : List Value)
      : Vm.callFromHost (Vm.call (fuel + 1)) f arguments m
        = .error (.failed .redirectChain) m := by
    have failed
        : Vm.call (fuel + 1) f arguments none 0 m.enter
          = .error (.failed .redirectChain) m.enter :=
      nested rfl rfl (Nat.zero_le _)
    simp only [Vm.callFromHost, Vm.enter, failed]
    rfl
  have nested {fuel : Nat} {arguments : List Value} {caller : Option ClosureRef} {depth : Nat}
      (le : depth ≤ m.config.limits.callDepth)
      : Vm.call (fuel + 1) f arguments caller depth m = .error (.failed .redirectChain) m :=
    nested rfl rfl le
  exact {
    nested
    host fuel arguments := Run.lift_error (fromHost fuel arguments)
    instruction stepped le :=
      (Vm.runFrames_of_call stepped).trans (Vm.enterCall_of_error le (failed m rfl rfl))
    index found absent handled function le :=
      (Vm.indexChain_of_function found absent handled function).trans
        (Run.bind_error (nested le))
    assign found owned handled function le :=
      (Vm.assignChain_of_function found owned handled function).trans
        (Run.bind_error (nested le))
    callHandler handled function le :=
      (Vm.callOther_of_function handled function).trans (nested le)
    program le := Run.bind_ok (Run.attempt_error (nested le))
    wrapper found wraps le := (Vm.callNative_of_wrapper found wraps).trans (nested le)
    fired callback :=
      (Connection.fire_of_callback callback).trans
        (Run.bind_ok (Run.attempt_error (fromHost ..)))
    firedWithin callback le :=
      (Connection.fire_of_callback callback).trans
        (Run.bind_ok (Run.attempt_error (nested le))) }

namespace Machine

/-- Chains are the same where closures are. -/
theorem Hops.of_heap {after : Machine} (chain : m.Hops hops f g) (same : after.heap = m.heap)
    : after.Hops hops f g := by
  induction chain with
  | none f => exact .none f
  | hop found redirect _ ih => exact .hop (same ▸ found) redirect ih

theorem Stays.of_heap {after : Machine} (stays : m.Stays f) (same : after.heap = m.heap)
    : after.Stays f := by
  cases f with
  | closure ref =>
      obtain ⟨c, found, redirect⟩ := stays
      exact ⟨c, same ▸ found, redirect⟩
  | _ => trivial

/-- Calls of a value go to the end of its chain of redirects if the limit allows. -/
theorem callsAlike_of_hops {e : Value} (chain : m.Hops hops f e) (stays : m.Stays e)
    (within : hops ≤ m.config.limits.redirectDepth)
    : m.CallsAlike f e := by
  refine callsAlike_of_resolve fun after heap config => ?_
  have still := stays.of_heap heap
  rw [Vm.resolve_eq, Vm.resolve_eq, Vm.followRedirects_of_stays still]
  exact Vm.followRedirects_of_hops (chain.of_heap heap) still (config ▸ within)

/-- Calls of a value go to the end of its chain of redirects by every way in which they come about,
or fail by each of them if the chain is too long or runs in a circle; and where a call goes is
always found out, while nothing changes.
-/
theorem calls_follow_redirects (m : Machine) (f : Value)
    : (∀ hops e, m.Hops hops f e → m.Stays e → hops ≤ m.config.limits.redirectDepth
        → m.CallsAlike f e)
      ∧ (m.Strays f → m.CallsFail f)
      ∧ ((∃ e, Vm.resolve f m = .ok e m) ∨ ∃ fault, Vm.resolve f m = .error (.failed fault) m) := by
  refine ⟨fun hops e => callsAlike_of_hops, fun strays => ?_, ?_⟩
  · obtain ⟨g, long⟩ := strays.long
    refine callsFail_of_resolve fun after heap config => ?_
    rw [Vm.resolve_eq]
    exact Vm.followRedirects_of_long (config ▸ long.of_heap heap)
  · rw [Vm.resolve_eq]
    rcases Vm.followRedirects_cases m m.config.limits.redirectDepth f with
      ⟨_, e, _, _, _, ran⟩ | ⟨_, _, ran⟩ | ⟨_, _, _, _, _, _, ran⟩
    · exact .inl ⟨e, ran⟩
    · exact .inr ⟨_, ran⟩
    · exact .inr ⟨_, ran⟩

/-- One closure goes to another, and a third one to itself. -/
theorem calls_follow_redirects_hop
    : ∃ (m : Machine) (f e g : Value), m.Hops 1 f e ∧ m.CallsAlike f e
        ∧ m.Strays g ∧ m.CallsFail g := by
  let start : Machine := .bare 1 {}
  let made (redirect : Option Value) : Closure :=
    { prototype := ⟨0⟩, upvalues := #[], environment := start.globals, redirect }
  let closure (index : Nat) : Value := .closure ⟨⟨1, index, 0⟩⟩
  let first := (start.heap.closures.insert (made none)).2
  let second := (first.insert (made (closure 0))).2
  let third := (second.insert (made (closure 2))).2
  let m : Machine := { start with heap.closures := third }
  have stays : m.Stays (closure 0) := ⟨made none, rfl, rfl⟩
  have chain : m.Hops 1 (closure 1) (closure 0) := .hop (c := made (closure 0)) rfl rfl (.none _)
  have strays : m.Strays (closure 2) :=
    .inr ⟨0, 0, closure 2, .none _, .hop (c := made (closure 2)) rfl rfl (.none _)⟩
  refine ⟨m, closure 1, closure 0, closure 2, chain, ?_, strays, ?_⟩
  · exact (m.calls_follow_redirects (closure 1)).1 1 _ chain stays (by decide)
  · exact (m.calls_follow_redirects (closure 2)).2.1 strays

end Machine
end HookMachine
