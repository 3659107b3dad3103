import HookMachine.Proofs.Connections.Calm

/-!
What is done to connections where functions of scripts run, methods of connection handles are called
and requests are made. Nothing else that is done at a point of a run shows in them.
-/

namespace HookMachine

open Machine (Lenient)
open Run (Looks Follows)

variable {α β : Type} {m after first : Machine}

-----------------------------------------------------------------------------------------
-- Changes of connections
-----------------------------------------------------------------------------------------

/-- What may be done to the connections of a runtime. -/
inductive Wiring where
  | register (signal : String) (callback : Value)
  | setEnabled (index : Nat) (on : Bool)
  | disconnect (index : Nat)

/-- The machine in which something is done to the connections. -/
def Machine.wired (m : Machine) : Wiring → Machine
  | .register signal callback => (Connection.register signal callback m).last
  | .setEnabled index on => (Connection.setEnabled index on m).last
  | .disconnect index => (Connection.disconnect index m).last

/-- What a method of the handle of a connection does to the connections. -/
def ConnectionMethod.wiring? (index : Nat) : ConnectionMethod → Option Wiring
  | .enable => some (.setEnabled index true)
  | .disable => some (.setEnabled index false)
  | .fire => none
  | .disconnect => some (.disconnect index)

/-- What a native of a runtime that is alive does to its connections. -/
def NativeBody.wiring? (arguments : List Value) : NativeBody → Option Wiring
  | .script .registerConnection =>
      match Script.argument arguments 0 with
      | .string signal => some (.register signal (Script.argument arguments 1))
      | _ => none
  | .method m index _ => m.wiring? index
  | _ => none

/-- What a request does to the connections. -/
def Request.wiring? : Request → Option Wiring
  | .connect signal callback => some (.register signal callback)
  | .setEnabled position on => some (.setEnabled position on)
  | .disconnect position => some (.disconnect position)
  | _ => none

namespace Machine

/-- A callback that may be connected. -/
def accepts (m : Machine) (callback : Value) : Bool :=
  callback.isFunction && m.heap.owns callback

/-- A callback that is accepted goes under the next index and is held by a guard. -/
theorem register_of_accepts {callback : Value} (accepted : m.accepts callback = true)
    (signal : String)
    : Connection.register signal callback m = .ok m.connections.size
        { (m.hold callback).2 with
          connections := m.connections.push { signal, callback := some (m.hold callback).1 } } := by
  obtain ⟨function, owned⟩ := Bool.and_eq_true_iff.mp accepted
  have held : (liftM (Vm.hold callback) : Action Guard) m
      = .ok (m.hold callback).1 (m.hold callback).2 :=
    Run.lift_ok (Vm.hold_of_owns owned)
  unfold Connection.register
  rw [if_pos function]
  exact Run.bind_ok held

/-- A callback that is not accepted is refused, and nothing is done. -/
theorem register_of_not_accepts {callback : Value} (refused : m.accepts callback = false)
    (signal : String)
    : ∃ failure, Connection.register signal callback m = .error (.failed failure) m := by
  unfold Connection.register
  by_cases function : callback.isFunction = true
  · have foreign : m.heap.owns callback = false := by
      rwa [accepts, function, Bool.true_and] at refused
    have unheld : (liftM (Vm.hold callback) : Action Guard) m
        = .error (.failed (.fault .foreignHandle)) m :=
      Run.lift_error (Vm.hold_of_foreign foreign)
    rw [if_pos function]
    exact ⟨_, Run.bind_error unheld⟩
  · rw [if_neg function]
    exact ⟨_, rfl⟩

theorem wired_disconnect (m : Machine) (index : Nat)
    : m.wired (.disconnect index)
      = { m with connections := ConnectionRegistry.disconnect m.connections index }.letGoAll
          (m.connections[index]? >>= (·.callback)).toList := by
  unfold wired Connection.disconnect
  cases known : m.connections[index]? >>= (·.callback) <;>
    simp only [modifyGet, MonadStateOf.modifyGet, EStateM.modifyGet, known] <;> rfl

/-- Whatever is done to the connections, no object is taken away. -/
theorem live_wired (m : Machine) (w : Wiring) {object : ObjectRef}
    (live : m.heap.isLive object = true)
    : (m.wired w).heap.isLive object = true := by
  cases w with
  | setEnabled index on => exact live
  | disconnect index =>
      rw [wired_disconnect]
      exact (calm_letGoAll _ _).live object live
  | register signal callback =>
      unfold wired
      dsimp only
      cases accepted : m.accepts callback with
      | true =>
          rw [register_of_accepts accepted]
          cases object <;> exact live
      | false =>
          obtain ⟨failure, refused⟩ := register_of_not_accepts accepted signal
          rw [refused]
          exact live

end Machine

-----------------------------------------------------------------------------------------
-- Functions of scripts and methods of connection handles
-----------------------------------------------------------------------------------------

namespace Script

/-- Every function of scripts but those that register a connection or fire a signal. -/
theorem run_calms (nested : Nested) (caller : Option ClosureRef) {f : ScriptFunction}
    (arguments : List Value) (unwired : f ≠ .registerConnection) (quiet : f ≠ .fireSignal)
    : Follows Machine.Calm (run nested caller f arguments) := by
  have gated {x : Action (List Value)} (operation : String) (follows : Follows Machine.Calm x)
      : Follows Machine.Calm (do Clearance.requirePrivilege operation; x : Action (List Value)) :=
    (Clearance.requirePrivilege_follows operation).andThen fun _ => follows
  cases copies : f.copies with
  | false =>
      exact run_follows Vm.instantiate_calms nested caller arguments copies
        (fun registers => absurd registers unwired) quiet
  | true =>
      cases f with
      | cloneFunction => exact single_follows (Vm.clone_calms _).lift _
      | installHook => exact gated _ (single_follows (Hook.install_follows (Vm.clone_calms _) _) _)
      | installMetamethodHook =>
          refine gated _ ((string_follows _ _ _).andThen fun name => ?_)
          refine single_follows ⟨fun m => ?_⟩ id
          exact Hook.installMetamethod_follows (fun _ _ _ _ => Vm.clone_calms _) _
      | _ => cases copies

/-- After a connection is registered a handle is made for it. -/
theorem run_register (nested : Nested) (caller : Option ClosureRef) {arguments : List Value}
    {signal : String} (given : argument arguments 0 = .string signal) (m : Machine)
    : (m.wired (.register signal (argument arguments 1))).Calm
        (run nested caller .registerConnection arguments m).last := by
  have handle (index : Nat)
      : Follows Machine.Calm (do return [.table (← connectionTable index)] : Action (List Value)) :=
    single_follows (connectionTable_follows index).lift _
  have named : string arguments 0 "signal name" m = .ok signal m := by
    unfold string
    rw [given]
    rfl
  unfold run
  dsimp only
  rw [Run.bind_ok named]
  unfold Machine.wired
  dsimp only
  rcases ran : Connection.register signal (argument arguments 1) m with
    ⟨index, after⟩ | ⟨halt, after⟩
  · rw [Run.bind_ok ran]
    exact (handle index).outcome after
  · rw [Run.bind_error ran]
    exact .refl after

/-- Without the name of a signal nothing is registered. -/
theorem run_unnamed (nested : Nested) (caller : Option ClosureRef) {arguments : List Value}
    (unnamed : ∀ signal, argument arguments 0 ≠ .string signal) (m : Machine)
    : (run nested caller .registerConnection arguments m).last = m := by
  have refused : ∃ error, string arguments 0 "signal name" m = .error (.failed error) m := by
    unfold string
    cases given : argument arguments 0 with
    | string signal => exact absurd given (unnamed signal)
    | _ => exact ⟨_, rfl⟩
  obtain ⟨error, refused⟩ := refused
  unfold run
  dsimp only
  rw [Run.bind_error refused]
  rfl

end Script

-----------------------------------------------------------------------------------------
-- Requests
-----------------------------------------------------------------------------------------

/-- Where a request comes to first, if it neither collects nor changes connections. -/
theorem Request.errand_calm {request : Request} (uncollected : request ≠ .collect)
    (unwired : request.wiring? = none) (m : Machine)
    : m.Calm (request.errand m).head := by
  have wires : request.connects = true → Machine.Wires Machine.Calm := by
    intro connects
    cases request <;> cases connects <;> cases unwired
  cases copies : request.copies with
  | false => exact errand_follows Vm.instantiate_calms uncollected copies wires m
  | true =>
      cases request with
      | clone f => exact (Vm.clone_calms f).lift.outcome m
      | hook target replacement => exact (Hook.install_follows (Vm.clone_calms target) _).outcome m
      | hookMetamethod object name replacement =>
          exact Hook.installMetamethod_follows (fun _ _ _ _ => Vm.clone_calms _) replacement
      | _ => cases copies

end HookMachine
