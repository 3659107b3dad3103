import HookMachine.Proofs.Bounds.Proceeding
import HookMachine.Proofs.Execution.Recursion

/-!
Where instructions are limited every call ends, and so does every read and write of a field:
calls within calls use up the depth that is left, and a stack of activations the instructions
that are left, whatever becomes of the errors in between.
-/

namespace HookMachine

open Run (Below Settled)

variable {α β : Type}

-----------------------------------------------------------------------------------------
-- Operations with fuel
-----------------------------------------------------------------------------------------

theorem Run.Below.settled {x y : Run Fault α} {m : Machine} (below : Below x y)
    (settled : Settled (x m))
    : Settled (y m) :=
  below.eq_of_settled m settled ▸ settled

theorem Run.settled_attempt {x : Vm α} {m : Machine} (settled : Settled (x m))
    : Settled (Run.attempt x m) := by
  unfold Run.attempt
  generalize x m = outcome at *
  rcases outcome with ⟨a, after⟩ | ⟨fault | _, after⟩
  · trivial
  · trivial
  · exact settled.elim

namespace Vm

/-- More fuel settles more. -/
def Rising (x : Nat → Vm α) : Prop :=
  ∀ fuel more, fuel ≤ more → Below (x fuel) (x more)

/-- With some fuel an operation settles. -/
def Ends (x : Nat → Vm α) (m : Machine) : Prop :=
  ∃ fuel, Settled (x fuel m)

variable {x : Nat → Vm α} {m : Machine}

theorem Rising.attempt (rising : Rising x) : Rising fun fuel => Run.attempt (x fuel) :=
  fun fuel more le => (rising fuel more le).attempt

theorem Ends.attempt (ends : Ends x m) : Ends (fun fuel => Run.attempt (x fuel)) m :=
  ends.imp fun _ settled => Run.settled_attempt settled

/-- One operation after the other ends if each does, with the fuel of either. -/
theorem Ends.bind {f : α → Nat → Vm β} (ends : Ends x m) (rising : Rising x)
    (later : ∀ a, Rising (f a))
    (rest : ∀ fuel a after, x fuel m = .ok a after → Ends (f a) after)
    : Ends (fun fuel => x fuel >>= fun a => f a fuel) m := by
  obtain ⟨fuel, settled⟩ := ends
  rcases ran : x fuel m with ⟨a, after⟩ | ⟨fault | _, after⟩
  · obtain ⟨more, ended⟩ := rest fuel a after ran
    refine ⟨max fuel more, ?_⟩
    have still := (rising _ _ (Nat.le_max_left fuel more)).eq_of_settled m settled
    have goes := (later a _ _ (Nat.le_max_right fuel more)).eq_of_settled after ended
    change Settled ((x (max fuel more) >>= fun a => f a (max fuel more)) m)
    rw [Run.bind_ok (still.trans ran), goes]
    exact ended
  · refine ⟨fuel, ?_⟩
    change Settled ((x fuel >>= fun a => f a fuel) m)
    rw [Run.bind_error ran]
    trivial
  · rw [ran] at settled
    exact settled.elim

end Vm

namespace Plan

/-- A plan settles at least as much with calls that settle more; by induction over its courses.
-/
theorem run_below {first second : Invoke} (below : first.Below second) (plan : Plan α)
    : Below (plan.run first) (plan.run second) := by
  refine ⟨fun m settled => ?_⟩
  change Settled ((plan m).run first) at settled
  change (plan m).run second = (plan m).run first
  generalize plan m = course at settled
  induction course with
  | ends outcome => rfl
  | calls call now next ih =>
      rw [run_calls call now next] at settled
      rw [run_calls call now next, run_calls call now next]
      have rest (results : Except Fault (List Value))
          : Below (Plan.run first (next results)) (Plan.run second (next results)) :=
        ⟨fun after settled => ih results after settled⟩
      exact (Below.bind (.attempt (below ..)) rest).eq_of_settled now settled
  | asks request now next ih =>
      rw [run_asks request now next] at settled
      rw [run_asks request now next, run_asks request now next]
      have rest (reply : Except Failure request.Answer)
          : Below (Plan.run first (next reply)) (Plan.run second (next reply)) :=
        ⟨fun after settled => ih reply after settled⟩
      have answers := Below.mapError Failure.toFault (.attempt (serve_below below request))
      exact (Below.bind answers rest).eq_of_settled now settled

theorem rising (plan : Plan α) : Vm.Rising fun fuel => plan.run (Vm.call fuel) :=
  fun _ _ le => run_below (Vm.call_below le) plan

/-- With some fuel for the calls that it makes a plan settles. -/
abbrev Ends (plan : Plan α) (m : Machine) : Prop :=
  Vm.Ends (fun fuel => plan.run (Vm.call fuel)) m

end Plan

namespace Invocation

theorem rising (call : Invocation) : Vm.Rising fun fuel => call.run (Vm.call fuel) :=
  fun _ _ le => Vm.call_below le ..

/-- With some fuel a call settles. -/
abbrev Ends (call : Invocation) (m : Machine) : Prop :=
  Vm.Ends (fun fuel => call.run (Vm.call fuel)) m

end Invocation

/-- The calls from a depth on end, whatever the machine has become. -/
def Regime.CallsEnd (regime : Regime) (floor : Nat) : Prop :=
  ∀ (call : Invocation) m, regime.Governs m → floor ≤ call.depth → call.Ends m

theorem Regime.CallsEnd.mono {regime : Regime} {floor other : Nat} (calls : regime.CallsEnd floor)
    (le : floor ≤ other)
    : regime.CallsEnd other :=
  fun call m governs deep => calls call m governs (Nat.le_trans le deep)

/-- A function of the host ends, where instructions are limited, if the calls that it makes
within the running one do.
-/
def HostFunction.Ends (allows : HostFunction → Prop) (f : HostFunction) : Prop :=
  ∀ (m : Machine) caller arguments depth,
    0 < m.config.limits.instructions → m.Employs allows
    → (∀ after g values, Regime.Onward { config := m.config, allows } m after
      → Vm.Ends (Vm.call · g values caller depth) after)
    → Vm.Ends
        (fun fuel =>
          Vm.runProgram (Vm.call fuel) (Vm.call fuel · · caller depth) (f caller arguments)) m

-----------------------------------------------------------------------------------------
-- Plans that end
-----------------------------------------------------------------------------------------

section Plans

variable {regime : Regime}
  (programs : ∀ f, regime.allows f → HostFunction.Within regime.allows (fun _ => True) f)
  (ending : ∀ f, regime.allows f → HostFunction.Ends regime.allows f)
  (limited : 0 < regime.config.limits.instructions)

include programs

namespace Plan

variable {floor : Nat} {m : Machine} {post : α → Prop}

/-- An operation after a plan ends if each does. -/
theorem Ends.bind {plan : Plan α} {f : α → Nat → Vm β} (ends : plan.Ends m)
    (steady : plan.Steady regime (fun _ => True) floor post) (governs : regime.Governs m)
    (later : ∀ a, Vm.Rising (f a))
    (rest : ∀ a after, regime.Onward m after → post a → Vm.Ends (f a) after)
    : Vm.Ends (fun fuel => plan.run (Vm.call fuel) >>= fun a => f a fuel) m := by
  refine Vm.Ends.bind ends plan.rising later fun fuel a after ran => ?_
  obtain ⟨onward, holds⟩ := (steady.run_proceeds programs fuel).of_ok governs ran
  exact rest a after onward holds

/-- One plan after the other ends if each does. -/
theorem Ends.andThen {plan : Plan α} {f : α → Plan β} (ends : plan.Ends m)
    (steady : plan.Steady regime (fun _ => True) floor post) (governs : regime.Governs m)
    (rest : ∀ a after, regime.Onward m after → post a → (f a).Ends after)
    : (plan >>= f).Ends m := by
  have both := ends.bind programs (f := fun a fuel => (f a).run (Vm.call fuel)) steady governs
    (fun a => (f a).rising) rest
  simpa only [Plan.Ends, run_bind] using both

/-- What comes after an operation that makes no call ends if that is so from there on. -/
theorem Ends.lift {x : Vm α} {f : α → Plan β} (yields : regime.Yields x post)
    (governs : regime.Governs m)
    (rest : ∀ a after, regime.Onward m after → post a → (f a).Ends after)
    : ((liftM x : Plan α) >>= f).Ends m := by
  have ends : (liftM x : Plan α).Ends m := ⟨0, (yields.outcome m governs).settled⟩
  have steady : (liftM x : Plan α).Steady regime (fun _ => True) 0 post := .lift yields
  exact ends.andThen programs steady governs rest

/-- A steady plan ends if the calls that it makes do; by induction over its courses. -/
theorem Steady.ends {asks : Request → Prop} {plan : Plan α}
    (steady : plan.Steady regime asks floor post)
    (apart : ∀ request, asks request → request.enters = false) (governs : regime.Governs m)
    (calls : regime.CallsEnd floor)
    : plan.Ends m := by
  have steady := steady.course m governs
  change ∃ fuel, Settled ((plan m).run (Vm.call fuel))
  generalize plan m = course at steady
  clear governs
  induction course generalizing m with
  | ends outcome => exact ⟨0, Regime.Idled.settled steady⟩
  | calls call now next ih =>
      obtain ⟨idles, deep, goes⟩ := steady
      have both := Vm.Ends.bind (f := fun results fuel => Plan.run (Vm.call fuel) (next results))
        (calls call now idles.governs deep).attempt call.rising.attempt
        (fun results => rising (next results)) fun fuel results after ran => ?_
      · exact both.imp fun fuel settled => by rwa [run_calls call now next]
      · have proceeds := (Vm.call_proceeds programs fuel call).attempt
        obtain ⟨onward, -⟩ := proceeds.of_ok idles.governs ran
        exact ih results after (goes results after onward)
  | asks request now next ih =>
      obtain ⟨idles, asked, goes⟩ := steady
      have idle (invoke : Invoke) : regime.Idle (Course.answer invoke request) :=
        (serve_idle invoke (apart request asked)).attempt.mapError _
      have answers : Vm.Rising fun fuel => Course.answer (Vm.call fuel) request :=
        fun _ _ le => .mapError _ (.attempt (serve_below (Vm.call_below le) request))
      have both := Vm.Ends.bind (f := fun reply fuel => Plan.run (Vm.call fuel) (next reply))
        ⟨0, ((idle _).outcome now idles.governs).settled⟩ answers
        (fun reply => rising (next reply)) fun fuel reply after ran => ?_
      · exact both.imp fun fuel settled => by rwa [run_asks request now next]
      · obtain ⟨onward, -⟩ := (idle (Vm.call fuel)).proceeds.of_ok idles.governs ran
        exact ih reply after (goes reply after onward)

include ending limited

/-- Functions of scripts end as steady plans do, those of the host because they are allowed. -/
theorem body_ends {arguments : List Value} {caller : Option ClosureRef} {d : Nat}
    (governs : regime.Governs m)
    (calls : regime.CallsEnd (d + 1))
    {b : NativeBody} (abides : ∀ f, b = .host f → regime.allows f)
    : (body arguments caller d b).Ends m := by
  have others (script : ∀ f, b ≠ .host f) : (body arguments caller d b).Ends m := by
    have steady : (body arguments caller d b).Steady regime (fun _ => False) (d + 1)
        fun _ => True :=
      body_steady (Nat.le_refl _) arguments fun f same => absurd same (script f)
    exact steady.ends programs (fun _ => False.elim) governs calls
  cases b with
  | host f =>
      have allowed := abides f rfl
      have ends := ending f allowed m caller arguments (d + 1) (governs.config ▸ limited)
        governs.employs fun after g values onward => ?_
      · simpa only [Plan.Ends, body, run_program] using ends
      · have still : regime.Governs after :=
          ⟨onward.governs.config.trans governs.config, onward.governs.employs⟩
        exact calls { f := g, arguments := values, caller, depth := d + 1 } after still
          (Nat.le_refl _)
  | _ => exact others (by simp)

theorem callOther_ends {target : Value} {arguments : List Value}
    {caller : Option ClosureRef} {d : Nat} (governs : regime.Governs m)
    (calls : regime.CallsEnd (d + 1))
    : (callOther target arguments caller d).Ends m := by
  have others (script : ∀ ref, target ≠ .native ref)
      : (callOther target arguments caller d).Ends m := by
    have steady : (callOther target arguments caller d).Steady regime (fun _ => False) (d + 1)
        fun _ => True :=
      callOther_steady (Nat.le_refl _) fun ref same => absurd same (script ref)
    exact steady.ends programs (fun _ => False.elim) governs calls
  cases target with
  | native ref =>
      exact .lift programs (Vm.native_yields ref) governs fun n after onward abides =>
        body_ends programs ending limited onward.governs calls abides
  | _ => exact others (by simp)

theorem callOther_andThen {target : Value} {arguments : List Value}
    {caller : Option ClosureRef} {d : Nat} {f : List Value → Plan β} (governs : regime.Governs m)
    (calls : regime.CallsEnd (d + 1))
    (rest : ∀ results after, (f results).Ends after)
    : (callOther target arguments caller d >>= f).Ends m := by
  have steady : (callOther target arguments caller d).Steady regime (fun _ => True) (d + 1)
      fun _ => True :=
    callOther_steady (Nat.le_refl _) fun ref _ =>
      callNative_steady programs (Nat.le_refl _) ref arguments
  exact (callOther_ends programs ending limited governs calls).andThen programs steady governs
    fun results after _ _ => rest results after

/-- One instruction ends if what it calls from one level deeper on does. -/
theorem advance_ends {top : Layer} {callers : List Layer} (i : Instruction)
    (governs : regime.Governs m)
    (calls : regime.CallsEnd (top.frame.depth + 1))
    : (advance top callers i).Ends m := by
  have performs {asks : Request → Prop}
      : (perform top.frame i).Steady regime asks (top.frame.depth + 1)
          (Vm.Flow.At top.frame.depth) :=
    perform_steady top.frame i
  refine .andThen programs (performs.ends programs (fun _ => False.elim) governs calls) performs
    governs fun flow after onward same => ?_
  cases flow with
  | next frame => exact ⟨0, trivial⟩
  | finish results => exact ⟨0, trivial⟩
  | call frame f arguments resume =>
      have within : top.frame.depth + 1 ≤ frame.depth + 1 := Nat.le_of_eq (congrArg _ same.symm)
      refine .lift programs (Vm.checkDepth_yields _) onward.governs fun _ after onward _ => ?_
      refine .lift programs (Vm.resolve_idle f) onward.governs fun target after onward _ => ?_
      split
      · exact .lift programs (Vm.openFrame_yields _ arguments _) onward.governs
          fun callee after onward _ => ⟨0, trivial⟩
      · exact callOther_andThen programs ending limited onward.governs
          (calls.mono (Nat.le_succ_of_le within)) fun results after => ⟨0, trivial⟩

/-- The beginning of a call ends if what it calls from one level deeper on does. -/
theorem start_ends (call : Invocation) (governs : regime.Governs m)
    (calls : regime.CallsEnd (call.depth + 1))
    : (start call).Ends m := by
  refine .lift programs (Vm.checkDepth_yields _) governs fun _ after onward _ => ?_
  refine .lift programs (Vm.resolve_idle _) onward.governs fun target after onward _ => ?_
  split
  · exact .lift programs (Vm.openFrame_yields _ _ _) onward.governs
      fun callee after onward _ => ⟨0, trivial⟩
  · exact callOther_andThen programs ending limited onward.governs calls
      fun results after => ⟨0, trivial⟩

end Plan

namespace Vm

include ending limited

/-- A stack ends if what it calls from one level above its base on does; by induction over the
instructions that are left.
-/
theorem runFrames_ends {base : Nat}
    (calls : regime.CallsEnd (base + 1))
    {top : Layer} {callers : List Layer}
    (stacked : Stacked base regime.config.limits.callDepth (top :: callers)) {m : Machine}
    (governs : regime.Governs m)
    : Ends (fun fuel => runFrames (call fuel) fuel top callers) m := by
  induction left : regime.config.limits.instructions - m.steps using Nat.strongRecOn
    generalizing top callers m with
  | ind left ih =>
    have limits : m.config.limits = regime.config.limits := congrArg Config.limits governs.config
    rcases fetch_cases top.frame m with ⟨fault, failed⟩ | ⟨i, ⟨free, -⟩ | ⟨below, fetched⟩⟩
    · refine ⟨1, ?_⟩
      change Settled (runFrames (call 1) 1 top callers m)
      rw [Plan.runFrames_eq, Run.bind_error failed]
      trivial
    · exact absurd (limits ▸ free) (Nat.pos_iff_ne_zero.mp limited)
    -- What the instruction calls may count more of them, but takes none of the count back.
    · have charged : regime.Governs { m with steps := m.steps + 1 } :=
        ⟨governs.config, governs.employs⟩
      have within : base + 1 ≤ top.frame.depth + 1 :=
        Nat.succ_le_succ (stacked.within top List.mem_cons_self).1
      have advances : (Plan.advance top callers i).Ends _ :=
        Plan.advance_ends programs ending limited i charged (calls.mono within)
      have goes := advances.bind programs
        (f := fun flow fuel => flow.elim pure fun stack => runFrames (call fuel) fuel stack.1 stack.2)
        (Plan.advance_steady programs stacked i) charged (fun flow => ?_)
        fun flow after onward stacked => ?_
      · obtain ⟨fuel, settled⟩ := goes
        have more : Below (runFrames (call fuel) (fuel + 1) top callers)
            (runFrames (call (fuel + 1)) (fuel + 1) top callers) :=
          runFrames_below (call_below (Nat.le_succ fuel)) (Nat.le_refl _) top callers
        refine ⟨fuel + 1, more.settled ?_⟩
        rw [Plan.runFrames_eq, Run.bind_ok fetched]
        refine Settled.of_bind settled fun flow => ?_
        cases flow <;> rfl
      · rcases flow with results | ⟨top, callers⟩
        · exact fun _ _ _ => .refl _
        · exact fun _ _ le => runFrames_below (call_below le) le top callers
      · rcases flow with results | ⟨top, callers⟩
        · exact ⟨0, trivial⟩
        · have counted := onward.steps
          refine ih _ ?_ stacked onward.governs rfl
          rw [limits] at below
          dsimp only at counted
          omega

/-- Every call ends; by induction over the depth that is left. -/
theorem call_ends (room : Nat) {call : Invocation} {m : Machine}
    (governs : regime.Governs m)
    (deep : regime.config.limits.callDepth < call.depth + room)
    : call.Ends m := by
  induction room generalizing call m with
  | zero =>
      have refused : (Plan.start call).run (Vm.call 0) m = .error (.failed .stackOverflow) m := by
        unfold Plan.start
        rw [Plan.run_bind, Plan.run_lift]
        exact Run.bind_error (checkDepth_of_lt (governs.config ▸ deep))
      refine ⟨1, ?_⟩
      change Settled (call.run (Vm.call 1) m)
      rw [Plan.call_eq, Run.bind_error refused]
      trivial
  | succ room ih =>
      have calls : regime.CallsEnd (call.depth + 1) :=
        fun other now governs deeper => ih governs (by omega)
      have starts := Plan.start_ends programs ending limited call governs calls
      have goes := starts.bind programs
        (f := fun flow fuel =>
          flow.elim pure fun frame => runFrames (Vm.call fuel) fuel ⟨frame, .forward⟩ [])
        (Plan.start_steady programs call) governs (fun flow => ?_)
        fun flow after onward activates => ?_
      · obtain ⟨fuel, settled⟩ := goes
        refine ⟨fuel + 1, ?_⟩
        change Settled (call.run (Vm.call (fuel + 1)) m)
        rw [Plan.call_eq]
        refine Settled.of_bind settled fun flow => ?_
        cases flow <;> rfl
      · rcases flow with results | frame
        · exact fun _ _ _ => .refl _
        · exact fun _ _ le => runFrames_below (call_below le) le _ _
      · rcases flow with results | frame
        · exact ⟨0, trivial⟩
        · obtain ⟨same, to_limit⟩ := activates
          refine runFrames_ends programs ending limited calls (.single ?_ ?_) onward.governs
          · exact Nat.le_of_eq same.symm
          · exact same ▸ to_limit

end Vm

-----------------------------------------------------------------------------------------
-- Functions of the host that end
-----------------------------------------------------------------------------------------

namespace Plan

/-- What a function of the host does ends if its calls do, provided that it makes no request
that enters the machine anew; by induction over its program.
-/
theorem program_ends {caller : Option ClosureRef} {depth : Nat} {body : HostProgram}
    (within : body.Within regime.allows fun r => r.enters = false) {m : Machine}
    (governs : regime.Governs m)
    (calls : ∀ after f values, regime.Onward m after
      → Vm.Ends (Vm.call · f values caller depth) after)
    : (program caller depth body).Ends m := by
  induction within generalizing m with
  | finish results => exact ⟨0, trivial⟩
  | fail fault => exact ⟨0, trivial⟩
  | @call f arguments next rest ih =>
      have ends : (tryCall f arguments caller depth).Ends m := by
        simpa only [Plan.Ends, run_tryCall] using (calls m f arguments (.refl governs)).attempt
      refine ends.andThen programs (.tryCall (Nat.le_refl depth)) governs
        fun outcome after onward _ => ih outcome onward.governs ?_
      exact fun later g values further => calls later g values (onward.trans further)
  | @ask request next asked rest ih =>
      have idle : regime.Idle (Course.answer (Vm.call 0) request) :=
        (serve_idle _ asked).attempt.mapError _
      have ends : (ask request).Ends m := by
        refine ⟨0, ?_⟩
        change Settled ((ask request).run (Vm.call 0) m)
        rw [run_ask]
        exact (idle.outcome m governs).settled
      have steady : (ask request).Steady regime (fun _ => True) 0 fun _ => True := .ask trivial
      refine ends.andThen programs steady governs fun reply after onward _ =>
        ih reply onward.governs ?_
      exact fun later g values further => calls later g values (onward.trans further)
  | create allowed rest ih =>
      refine .lift programs (.mapError _ (.attempt (.lift (Vm.createNative_idle ?_)))) governs
        fun reply after onward _ => ih reply onward.governs ?_
      · rintro f ⟨⟩
        exact allowed
      · exact fun later g values further => calls later g values (onward.trans further)

end Plan
end Plans

/-- A function of the host that makes no request that enters the machine anew ends if the calls
do that it makes within the running one.
-/
theorem HostFunction.Within.ends {allows : HostFunction → Prop}
    (programs : ∀ f, allows f → HostFunction.Within allows (fun _ => True) f) {f : HostFunction}
    (contained : HostFunction.Within allows (fun r => r.enters = false) f)
    : HostFunction.Ends allows f := by
  intro m caller arguments depth _ employs calls
  let regime : Regime := { config := m.config, allows }
  have governs : regime.Governs m := ⟨rfl, employs⟩
  have ends : (Plan.program caller depth (f caller arguments)).Ends m :=
    Plan.program_ends programs (contained caller arguments) governs calls
  simpa only [Plan.Ends, Plan.run_program] using ends

-----------------------------------------------------------------------------------------
-- Limited machines
-----------------------------------------------------------------------------------------

namespace Vm

/-- Where instructions are limited, whatever the heap and the code in it and at whatever depth,
every call ends and so does every read and write of a field, provided that the functions of the
host end when the calls do that they make within the running one.
-/
theorem ends_of_limited {allows : HostFunction → Prop}
    (programs : ∀ f, allows f → HostFunction.Within allows (fun _ => True) f)
    (ending : ∀ f, allows f → HostFunction.Ends allows f) {m : Machine}
    (employs : m.Employs allows) (limited : 0 < m.config.limits.instructions)
    : (∀ f arguments caller depth, Ends (call · f arguments caller depth) m)
      ∧ (∀ object key depth, Ends (fun fuel => index (call fuel) object key depth) m)
      ∧ ∀ object key value depth,
        Ends (fun fuel => assign (call fuel) object key value depth) m := by
  let regime : Regime := { config := m.config, allows }
  have governs : regime.Governs m := ⟨rfl, employs⟩
  have calls (call : Invocation) (now : Machine) (governs : regime.Governs now)
      : call.Ends now :=
    call_ends programs ending limited (m.config.limits.callDepth + 1) governs
      (Nat.lt_of_lt_of_le (Nat.lt_succ_self _) (Nat.le_add_left _ _))
  have plans {α : Type} {plan : Plan α}
      (steady : plan.Steady regime (fun _ => False) 0 fun _ => True)
      : plan.Ends m :=
    steady.ends programs (fun _ => False.elim) governs fun call now governs _ =>
      calls call now governs
  refine ⟨fun f arguments caller depth => ?_, fun object key depth => ?_,
    fun object key value depth => ?_⟩
  · exact calls { f, arguments, caller, depth } m governs
  · simpa only [Plan.Ends, Plan.run_index]
      using plans (Plan.index_steady (Nat.zero_le _) object key)
  · simpa only [Plan.Ends, Plan.run_assign]
      using plans (Plan.assign_steady (Nat.zero_le _) object key value)

/-- The callback of a connection fires its own signal again. -/
theorem ends_of_limited_refiring
    : ∃ (allows : HostFunction → Prop) (m : Machine) (fire : Value),
        (∀ f, allows f → HostFunction.Within allows (fun _ => True) f)
        ∧ (∀ f, allows f → HostFunction.Ends allows f)
        ∧ m.Employs allows ∧ 0 < m.config.limits.instructions
        ∧ Ends (call · fire [.string "S"] none 0) m
        ∧ ¬ Settled (call 200 fire [.string "S"] none 0 m) := by
  let start : Machine := .bare 1 {}
  let fire : Value := .native ⟨⟨1, 0, 0⟩⟩
  let refire : HostFunction := fun _ _ => .call fire [.string "S"] fun _ => .finish []
  let natives : Arena Native := (start.heap.natives.insert
    { name := "fire_signal", body := .script .fireSignal }).2
  let m : Machine :=
    { start with
      heap.natives := (natives.insert { name := "refire", body := .host refire }).2
      connections :=
        #[{ signal := "S", callback := some { slot := ⟨1, 0, 0⟩, value := .native ⟨⟨1, 1, 0⟩⟩ } }] }
  let allows (f : HostFunction) : Prop := f = refire
  have programs (f : HostFunction) (same : allows f) (asks : Request → Prop)
      : HostFunction.Within allows asks f := by
    rw [same]
    exact fun _ _ => .call fun _ => .finish _
  have ending (f : HostFunction) (same : allows f) : HostFunction.Ends allows f :=
    HostFunction.Within.ends (fun f same => programs f same _) (programs f same _)
  have employs : m.Employs allows := by
    intro handle n found f body
    rcases Arena.get_insert.mp found with ⟨-, rfl⟩ | found
    · cases body
      rfl
    · rcases Arena.get_insert.mp found with ⟨-, rfl⟩ | found
      · cases body
      · exact absurd found (Arena.get_empty 1 handle n)
  have limited : 0 < m.config.limits.instructions := by decide
  have ends := ends_of_limited (fun f same => programs f same _) ending employs limited
  refine ⟨allows, m, fire, fun f same => programs f same _, ending, employs, limited,
    ends.1 fire _ none 0, ?_⟩
  decide +kernel

end Vm
end HookMachine
