import HookMachine.Proofs.Bounds.Stacks

/-!
What running code never does, functions of the host and entries anew included: it leaves the
configuration and what natives do as it was, and takes back no instruction that is counted.
-/

namespace HookMachine

variable {ε ε' α β : Type} {regime : Regime}

namespace Regime

variable {m : Machine} {post : α → Prop}

/-- What an operation comes to that may run code: a result is as `post` says. -/
def Moved (regime : Regime) (m : Machine) (post : α → Prop)
    : EStateM.Result (Halt ε) Machine α → Prop
  | .ok a after => regime.Onward m after ∧ post a
  | .error (.failed _) after => regime.Onward m after
  | .error .outOfFuel _ => True

theorem Idled.moved {outcome : EStateM.Result (Halt ε) Machine α}
    (idled : regime.Idled m post outcome)
    : regime.Moved m post outcome := by
  rcases outcome with ⟨a, after⟩ | ⟨_ | _, after⟩
  · exact ⟨idled.1.onward, idled.2⟩
  · exact idled.onward
  · trivial

/-- What comes after a machine that is onward is onward too. -/
theorem Moved.after {middle : Machine} {outcome : EStateM.Result (Halt ε) Machine α}
    (moved : regime.Moved middle post outcome) (onward : regime.Onward m middle)
    : regime.Moved m post outcome := by
  rcases outcome with ⟨a, after⟩ | ⟨_ | _, after⟩
  · exact ⟨onward.trans moved.1, moved.2⟩
  · exact onward.trans moved
  · trivial

theorem Moved.bind {x : Run ε α} {f : α → Run ε β} {last : β → Prop}
    (moved : regime.Moved m post (x m))
    (rest : ∀ a after, regime.Onward m after → post a → regime.Moved after last (f a after))
    : regime.Moved m last ((x >>= f) m) := by
  change regime.Moved m last (EStateM.bind x f m)
  unfold EStateM.bind
  generalize x m = outcome at *
  rcases outcome with ⟨a, middle⟩ | ⟨_ | _, middle⟩
  · exact (rest a middle moved.1 moved.2).after moved.1
  · exact moved
  · trivial

/-- An operation, if it ends, leads onward, and a result of it is as `post` says. -/
structure Proceeds (regime : Regime) (x : Run ε α) (post : α → Prop) : Prop where
  outcome : ∀ m, regime.Governs m → regime.Moved m post (x m)

theorem Yields.proceeds {x : Run ε α} (yields : regime.Yields x post)
    : regime.Proceeds x post :=
  ⟨fun m governs => (yields.outcome m governs).moved⟩

namespace Proceeds

variable {x : Run ε α}

theorem of_ok {a : α} {after : Machine} (proceeds : regime.Proceeds x post)
    (governs : regime.Governs m) (ran : x m = .ok a after)
    : regime.Onward m after ∧ post a := by
  have moved := proceeds.outcome m governs
  rw [ran] at moved
  exact moved

theorem bind {f : α → Run ε β} {last : β → Prop} (first : regime.Proceeds x post)
    (rest : ∀ a, post a → regime.Proceeds (f a) last)
    : regime.Proceeds (x >>= f) last :=
  ⟨fun m governs => (first.outcome m governs).bind fun a after onward holds =>
    (rest a holds).outcome after onward.governs⟩

/-- What comes second takes no notice of what the first results in. -/
theorem andThen {f : α → Run ε β} {last : β → Prop} (first : regime.Proceeds x post)
    (rest : ∀ a, regime.Proceeds (f a) last)
    : regime.Proceeds (x >>= f) last :=
  first.bind fun a _ => rest a

theorem mapError (g : ε → ε') (proceeds : regime.Proceeds x post)
    : regime.Proceeds (Run.mapError g x) post := by
  refine ⟨fun m governs => ?_⟩
  have moved := proceeds.outcome m governs
  unfold Run.mapError
  generalize x m = outcome at *
  rcases outcome with ⟨a, after⟩ | ⟨_ | _, after⟩ <;> exact moved

theorem attempt (proceeds : regime.Proceeds x post)
    : regime.Proceeds (Run.attempt x) fun _ => True := by
  refine ⟨fun m governs => ?_⟩
  have moved := proceeds.outcome m governs
  unfold Run.attempt
  generalize x m = outcome at *
  rcases outcome with ⟨a, after⟩ | ⟨_ | _, after⟩
  · exact ⟨moved.1, trivial⟩
  · exact ⟨moved, trivial⟩
  · trivial

/-- An entry counts anew, but what was counted before it is put back. -/
theorem enter {x : Vm α} (proceeds : regime.Proceeds x post)
    : regime.Proceeds (Vm.enter x) post := by
  refine ⟨fun m governs => ?_⟩
  have moved := proceeds.outcome m.enter ⟨governs.config, governs.employs⟩
  have left {middle : Machine} (onward : regime.Onward m.enter middle)
      : regime.Onward m (middle.leave m.steps) :=
    ⟨⟨onward.governs.config, onward.governs.employs⟩, Nat.le_refl _⟩
  unfold Vm.enter
  generalize x m.enter = outcome at *
  rcases outcome with ⟨a, after⟩ | ⟨_ | _, after⟩
  · exact ⟨left moved.1, moved.2⟩
  · exact left moved
  · trivial

end Proceeds
end Regime

open Regime (Proceeds)

/-- A steady plan proceeds, if the calls and requests that it makes do; by induction over its
courses.
-/
theorem Plan.Steady.proceeds {asks : Request → Prop} {floor : Nat} {plan : Plan α}
    {post : α → Prop} {invoke : Invoke} (steady : plan.Steady regime asks floor post)
    (calls : ∀ call : Invocation, regime.Proceeds (call.run invoke) fun _ => True)
    (requests : ∀ request, asks request → regime.Proceeds (serve invoke request) fun _ => True)
    : regime.Proceeds (plan.run invoke) post := by
  refine ⟨fun m governs => ?_⟩
  have steady := steady.course m governs
  change regime.Moved m post ((plan m).run invoke)
  generalize plan m = course at steady
  clear governs
  induction course generalizing m with
  | ends outcome => exact Regime.Idled.moved steady
  | calls call now next ih =>
      obtain ⟨idles, -, goes⟩ := steady
      rw [run_calls call now next]
      refine .after ?_ idles.onward
      exact ((calls call).attempt.outcome now idles.governs).bind fun results after onward _ =>
        ih results after after (goes results after onward)
  | asks request now next ih =>
      obtain ⟨idles, asked, goes⟩ := steady
      have answers : regime.Proceeds (Course.answer invoke request) fun _ => True :=
        (requests request asked).attempt.mapError _
      rw [run_asks request now next]
      refine .after ?_ idles.onward
      exact (answers.outcome now idles.governs).bind fun reply after onward _ =>
        ih reply after after (goes reply after onward)

/-- Every request proceeds, if calls do. -/
theorem serve_proceeds {invoke : Invoke}
    (calls : ∀ call : Invocation, regime.Proceeds (call.run invoke) fun _ => True)
    (request : Request)
    : regime.Proceeds (serve invoke request) fun _ => True := by
  have plans {γ : Type} {invoke : Invoke} {plan : Plan γ}
      (calls : ∀ call : Invocation, regime.Proceeds (call.run invoke) fun _ => True)
      (steady : plan.Steady regime (fun _ => False) 0 fun _ => True)
      : regime.Proceeds (plan.run invoke) fun _ => True :=
    steady.proceeds calls fun _ => False.elim
  have reads (object key : Value)
      : regime.Proceeds (Vm.index invoke object key 0) fun _ => True := by
    rw [← Plan.run_index]
    exact plans calls (Plan.index_steady (Nat.zero_le _) object key)
  -- Connections are fired by calls from the host.
  let fromHost : Invoke := fun f arguments _ _ => Vm.callFromHost invoke f arguments
  have entering (call : Invocation) : regime.Proceeds (call.run fromHost) fun _ => True :=
    (calls { call with caller := none, depth := 0 }).enter
  cases request with
  | call f arguments =>
      exact .mapError _ (entering { f, arguments, caller := none, depth := 0 })
  | index object key => exact .mapError _ (.enter (reads object key))
  | assign object key value =>
      have writes : regime.Proceeds (Vm.assign invoke object key value 0) fun _ => True := by
        rw [← Plan.run_assign]
        exact plans calls (Plan.assign_steady (Nat.zero_le _) object key value)
      exact .mapError _ (.enter writes)
  | readShared name =>
      refine (Environment.find_idle _).proceeds.andThen fun ref => ?_
      exact .mapError _ (.enter (reads _ _))
  | fire index arguments =>
      have fires := plans entering
        (Plan.fire_steady (Nat.zero_le 0) arguments index : (Plan.fire _ none 0 _).Steady ..)
      rw [Plan.run_fire] at fires
      exact fires.mapError _
  | fireSignal signal arguments =>
      have fires := plans entering
        (Plan.fireSignal_steady (Nat.zero_le 0) arguments signal
          : (Plan.fireSignal _ none 0 _).Steady ..)
      rw [Plan.run_fireSignal] at fires
      exact fires.mapError _
  | _ => exact (serve_idle invoke rfl).proceeds

-----------------------------------------------------------------------------------------
-- Calls
-----------------------------------------------------------------------------------------

namespace Vm

theorem fetch_proceeds (frame : Frame) : regime.Proceeds (fetch frame) fun _ => True := by
  refine ⟨fun m governs => ?_⟩
  have onward : regime.Onward m m := .refl governs
  rcases fetch_cases frame m with ⟨fault, failed⟩ | ⟨i, ⟨-, fetched⟩ | ⟨-, fetched⟩⟩
  · rw [failed]
    exact onward
  · rw [fetched]
    exact ⟨onward, trivial⟩
  · rw [fetched]
    exact ⟨⟨⟨governs.config, governs.employs⟩, Nat.le_succ _⟩, trivial⟩

end Vm

variable (programs : ∀ f, regime.allows f → HostFunction.Within regime.allows (fun _ => True) f)

include programs

namespace Vm

/-- A stack proceeds, if calls do; by induction over its instructions. -/
theorem runFrames_proceeds {invoke : Invoke}
    (calls : ∀ call : Invocation, regime.Proceeds (call.run invoke) fun _ => True)
    (fuel : Nat) {top : Layer} {callers : List Layer}
    (stacked : Stacked 0 regime.config.limits.callDepth (top :: callers))
    : regime.Proceeds (runFrames invoke fuel top callers) fun _ => True := by
  induction fuel generalizing top callers with
  | zero => exact ⟨fun _ _ => trivial⟩
  | succ fuel ih =>
      rw [Plan.runFrames_eq]
      refine (fetch_proceeds top.frame).andThen fun i => ?_
      refine ((Plan.advance_steady programs stacked i).proceeds calls fun request _ =>
        serve_proceeds calls request).bind fun flow stacked => ?_
      rcases flow with results | ⟨top, callers⟩
      · exact (Regime.Yields.pure trivial).proceeds
      · exact ih stacked

/-- Every call proceeds; by induction over the fuel, which bounds how calls are nested. -/
theorem call_proceeds (fuel : Nat) (call : Invocation)
    : regime.Proceeds (call.run (Vm.call fuel)) fun _ => True := by
  induction fuel generalizing call with
  | zero => exact ⟨fun _ _ => trivial⟩
  | succ fuel ih =>
      rw [Plan.call_eq]
      refine ((Plan.start_steady programs call).proceeds ih fun request _ =>
        serve_proceeds ih request).bind fun flow activates => ?_
      rcases flow with results | frame
      · exact (Regime.Yields.pure trivial).proceeds
      · obtain ⟨same, to_limit⟩ := activates
        exact runFrames_proceeds programs ih fuel (.single (Nat.zero_le _) (same ▸ to_limit))

end Vm

/-- Every steady plan proceeds. -/
theorem Plan.Steady.run_proceeds {floor : Nat} {plan : Plan α} {post : α → Prop}
    (steady : plan.Steady regime (fun _ => True) floor post) (fuel : Nat)
    : regime.Proceeds (plan.run (Vm.call fuel)) post :=
  steady.proceeds (Vm.call_proceeds programs fuel) fun request _ =>
    serve_proceeds (Vm.call_proceeds programs fuel) request

end HookMachine
