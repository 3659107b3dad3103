import HookMachine.Proofs.Deeds.Activations
import HookMachine.Proofs.Execution.Invocations
import HookMachine.Proofs.Execution.Nesting

/-!
Who is told to natives as their caller. A call instruction makes its call for the closure that executes
it, natives pass on whom they were called for, and what handles an access to a field is called for
nobody. So a native is told of the closure of the innermost activation, unless it is reached through an
access to a field that this activation makes.
-/

namespace HookMachine

variable {α : Type} {d : Nat} {m now after : Machine} {invoke : Invoke}

/-- A call is made for a closure, or for nobody. -/
def Invocation.For (caller : Option ClosureRef) (call : Invocation) : Prop :=
  call.caller = caller

-----------------------------------------------------------------------------------------
-- Calls that are made
-----------------------------------------------------------------------------------------

namespace Course.Each

variable {P : Invocation → Prop} {course rest : Course α}

/-- What is said of every call holds of those of what is left, by induction over how a course comes to
that.
-/
theorem comes (each : course.Each P) (comes : course.Comes invoke rest) : rest.Each P := by
  induction comes with
  | refl => exact each
  | called _ _ ih => exact ih (each.2 ..)
  | answered _ _ ih => exact ih (each ..)

theorem of_makes {call : Invocation} (each : course.Each P) (makes : course.Makes invoke call now)
    : P call := by
  obtain ⟨next, comes⟩ := makes
  exact (each.comes comes).1

end Course.Each

-----------------------------------------------------------------------------------------
-- Errands
-----------------------------------------------------------------------------------------

/-- Whatever an errand enters to do makes its calls for nobody. -/
def Errand.ForNobody : Errand α → Prop
  | .ends _ => True
  | .enters body _ next => body.Each (·.For none) ∧ ∀ results after, (next results after).ForNobody

namespace Errand.ForNobody

variable {body : Plan (List Value)}

/-- By induction over the entries of an errand. -/
theorem of_enters {errand : Errand α} (nobody : errand.ForNobody)
    (enters : errand.Enters invoke body now)
    : body.Each (·.For none) := by
  induction enters with
  | first => exact nobody.1
  | later _ _ ih => exact ih (nobody.2 ..)

theorem once (made : body.Each (·.For none)) (answer : List Value → α)
    : (Errand.once body answer m).ForNobody :=
  ⟨made, fun results _ => by cases results <;> trivial⟩

theorem fire (arguments : List Value) (index : Nat) {next : Bool → Machine → Errand α}
    (rest : ∀ ran m, (next ran m).ForNobody)
    : (Errand.fire arguments index next m).ForNobody := by
  unfold Errand.fire
  split
  · exact rest ..
  · exact ⟨.call rfl, fun _ _ => rest ..⟩

/-- By induction over the connections. -/
theorem fireAll (arguments : List Value) (indices : List Nat) {next : Nat → Machine → Errand α}
    (rest : ∀ count m, (next count m).ForNobody)
    : (Errand.fireAll arguments indices next m).ForNobody := by
  induction indices generalizing next m with
  | nil => exact rest ..
  | cons index others ih => exact fire arguments index fun _ _ => ih fun _ _ => rest ..

/-- The host calls for nobody. -/
theorem of_request (request : Request) (m : Machine) : (request.errand m).ForNobody := by
  have reads (object key : Value)
      : (do return [← Plan.index object key 0] : Plan (List Value)).Each (·.For none) :=
    (Plan.index_each (fun _ _ => rfl) object key).andThen fun _ => .pure _
  cases request with
  | call f arguments => exact once (.call rfl) _
  | index object key => exact once (reads object key) _
  | assign object key value =>
      have writes := Plan.assign_each (d := 0) (P := (·.For none)) (fun _ _ => rfl) object key value
      exact once (writes.andThen fun _ => .pure _) _
  | readShared name =>
      rw [Request.errand]
      split
      · exact once (reads ..) _
      · trivial
  | fire position arguments =>
      have ends (ran : Bool) (after : Machine) : (Errand.ends (.ok ran after)).ForNobody := trivial
      exact fire _ _ ends
  | fireSignal signal arguments =>
      have ends (count : Nat) (after : Machine) : (Errand.ends (.ok count after)).ForNobody := trivial
      exact fireAll _ _ ends
  | _ => trivial

end Errand.ForNobody

-----------------------------------------------------------------------------------------
-- Works
-----------------------------------------------------------------------------------------

/-- Who is told to natives within levels: the closure of the activation that is the innermost of them,
and otherwise nobody.
-/
def Level.told : List Level → Option ClosureRef
  | .activation frame :: _ => some frame.closure
  | _ => none

/-- A work within levels tells natives what it should. -/
structure Work.Tells (work : Work) (outer : List Level) : Prop where
  plan : work.plan.Each (·.For (Level.told (work.levels outer)))
  call {call : Invocation} (called : work.called? = some call)
    : call.For (Level.told (work.levels outer))

namespace Work.Tells

variable {outer : List Level}

theorem of_body {body : Plan (List Value)} (nobody : body.Each (·.For none))
    : (Work.body body).Tells [] :=
  ⟨nobody, nofun⟩

theorem of_call {call : Invocation} (told : call.For (Level.told outer))
    : (Work.call call).Tells outer := by
  refine ⟨Plan.start_each call fun _ _ => told, fun called => ?_⟩
  cases called
  exact told

/-- Whatever came before, an instruction tells of its activation if it calls and of nobody otherwise. -/
theorem of_instruction (top : Layer) (callers : List Layer) (i : Instruction)
    : (Work.instruction top callers i).Tells outer := by
  by_cases calls : i.operation? = some .call ∨ i.operation? = some .tailCall
  · have told : Level.told ((Work.instruction top callers i).levels outer)
        = some top.frame.closure := by
      rw [Work.levels, if_pos calls]
      rfl
    refine ⟨Plan.advance_each_of_call callers calls fun _ _ => told.symm, fun called => ?_⟩
    rw [Work.called?, if_pos calls] at called
    cases called
    exact told.symm
  · have told : Level.told ((Work.instruction top callers i).levels outer) = none := by
      rw [Work.levels, if_neg calls]
      rfl
    refine ⟨Plan.advance_each_of_other callers calls fun _ _ => told.symm, fun called => ?_⟩
    rw [Work.called?, if_neg calls] at called
    cases called

end Work.Tells

/-- Every work of a session tells natives what it should, by induction over how the session comes to
it.
-/
theorem HostProgram.Comes.tells {session : HostProgram} {limit fuel : Nat} {start : Machine}
    {outer : List Level} {work : Work} (comes : session.Comes limit start fuel outer work now)
    : work.Tells outer := by
  induction comes with
  | begins => exact .of_body (Plan.program_each (fun _ _ => rfl) session)
  | enters _ _ enters => exact .of_body ((Errand.ForNobody.of_request ..).of_enters enters)
  | calls _ makes ih => exact .of_call ((ih.plan.course _).of_makes makes)
  | executes => exact .of_instruction ..

-----------------------------------------------------------------------------------------
-- Natives
-----------------------------------------------------------------------------------------

/-- A call comes down to a native. -/
structure Invocation.Reaches (call : Invocation) (ref : NativeRef) (m : Machine) : Prop where
  within : call.depth ≤ m.config.limits.callDepth
  resolved : Vm.resolve call.f m = .ok (.native ref) m

namespace Plan

variable {ref : NativeRef}

theorem start_of_reaches {call : Invocation} (reaches : call.Reaches ref m)
    : start call m = (callNative ref call.arguments call.caller call.depth m).bind
        fun results => pure (.inl results) :=
  (bind_of_ok (Vm.checkDepth_of_le reaches.within) _).trans (bind_of_ok reaches.resolved _)

/-- A work that is a call of a native does nothing but what the native does for whom it is called. -/
theorem of_reaches {work : Work} {call : Invocation} (called : work.called? = some call)
    (reaches : call.Reaches ref m)
    : ∃ finish : List Value → work.Outcome,
        work.plan m = (callNative ref call.arguments call.caller call.depth m).bind
          fun results => pure (finish results) := by
  cases work with
  | body plan => cases called
  | call made =>
      cases called
      exact ⟨.inl, start_of_reaches reaches⟩
  | instruction top callers i =>
      simp only [Work.called?, Option.ite_none_right_eq_some, Option.some.injEq] at called
      obtain ⟨calls, rfl⟩ := called
      obtain ⟨resume, same⟩ := advance_of_call callers calls
      refine ⟨(unwind · resume (past top :: callers)), (congrFun same m).trans ?_⟩
      exact (bind_of_ok (Vm.checkDepth_of_le reaches.within) _).trans (bind_of_ok reaches.resolved _)

end Plan

/-- A nested prototype that is activated for a closure has the environment of that closure. -/
theorem Reflection.nested_makes {home made : ClosureRef} {f : Value} {position : Int} {activate : Bool}
    (ran : nested (some home) f position activate m = .ok (some (.closure made)) after)
    : ∃ c d, m.heap.closures.get home.handle = .ok c ∧ after.heap.closures.get made.handle = .ok d
        ∧ d.environment = c.environment := by
  cases f with
  | closure ref =>
      obtain ⟨own, _, looked, reading⟩ := Run.of_bind_ok ran
      obtain ⟨-, rfl⟩ := Vm.closure_ok (Run.of_lift_ok looked)
      obtain ⟨p, _, read, selecting⟩ := Run.of_bind_ok reading
      cases (Vm.prototype_looks _).ok (Run.of_lift_ok read)
      rcases listed : (slot? position p.nested.size).bind (p.nested[·]?) with _ | child
      · simp only [listed] at selecting
        cases selecting
      · simp only [listed] at selecting
        split at selecting
        · obtain ⟨c, _, asked, activating⟩ := Run.of_bind_ok selecting
          obtain ⟨found, rfl⟩ := Vm.closure_ok (Run.of_lift_ok asked)
          obtain ⟨ref, _, makes, ends⟩ := Run.of_bind_ok activating
          cases ends
          obtain ⟨d, held, same⟩ := Vm.instantiate_makes (Run.of_lift_ok makes)
          exact ⟨c, d, found, held, same⟩
        · obtain ⟨_, _, -, ends⟩ := Run.of_bind_ok selecting
          cases ends
  | _ =>
      obtain ⟨_, _, -, ends⟩ := Run.of_bind_ok ran
      cases ends

theorem Action.of_toVm_ok {x : Action α} {a : α} (ran : x.toVm m = .ok a after) : x m = .ok a after := by
  change Run.mapError Failure.toFault x m = _ at ran
  unfold Run.mapError at ran
  rcases came : x m with ⟨b, last⟩ | ⟨_ | _, last⟩ <;> rw [came] at ran <;> cases ran
  rfl

/-- What scripts activate has the environment of the closure that they are called by. -/
theorem Plan.getNested_makes {ref : NativeRef} {n : Native} {home made : ClosureRef}
    {arguments : List Value} (found : m.heap.natives.get ref.handle = .ok n)
    (runs : n.body = .script .getNested)
    (ran : (callNative ref arguments (some home) d).run invoke m = .ok [.closure made] after)
    : ∃ c d, m.heap.closures.get home.handle = .ok c ∧ after.heap.closures.get made.handle = .ok d
        ∧ d.environment = c.environment := by
  rw [run_callNative] at ran
  obtain ⟨_, _, looked, doing⟩ := Run.of_bind_ok ran
  cases (Vm.native_of_get found).symm.trans looked
  rw [runs] at doing
  obtain ⟨_, _, got, checking⟩ := Run.of_bind_ok doing
  cases got
  split at checking
  case isFalse =>
    obtain ⟨_, _, fails, -⟩ := Run.of_bind_ok checking
    cases fails
  obtain ⟨position, _, given, nesting⟩ := Run.of_bind_ok (Action.of_toVm_ok checking)
  cases (Script.integer_looks ..).ok given
  obtain ⟨nested, _, makes, ends⟩ := Run.of_bind_ok nesting
  match nested with
  | none => cases ends
  | some (.description info) =>
      obtain ⟨_, _, -, ends⟩ := Run.of_bind_ok ends
      cases ends
  | some (.closure ref) =>
      cases ends
      exact Reflection.nested_makes makes

-----------------------------------------------------------------------------------------
-- Sessions
-----------------------------------------------------------------------------------------

/-- What a session, begun in a machine with an amount of fuel, tells natives of their callers. -/
structure HostProgram.Telling (session : HostProgram) (limit : Nat) (start : Machine) : Prop where
  /-- Where a call comes down to a native, what is done is what the native does for the caller of the
  call.
  -/
  natives {work : Work} {call : Invocation} {ref : NativeRef} {m : Machine}
    (called : work.called? = some call) (reaches : call.Reaches ref m)
    : ∃ finish : List Value → work.Outcome,
        work.plan m = (Plan.callNative ref call.arguments call.caller call.depth m).bind
          fun results => pure (finish results)
  /-- The caller is the closure of the activation that is the innermost of the levels, and nobody where
  there is none or an access to a field is the innermost.
  -/
  callers {fuel : Nat} {outer : List Level} {work : Work} {now : Machine} {call : Invocation}
    (comes : session.Comes limit start fuel outer work now) (called : work.called? = some call)
    : call.caller = Level.told (work.levels outer)
  /-- Nested prototypes that are activated from an activation get the environment of its closure. -/
  activates {fuel : Nat} {outer others : List Level} {work : Work} {now after : Machine}
    {call : Invocation} {frame : Frame} {ref : NativeRef} {n : Native} {made : ClosureRef}
    (comes : session.Comes limit start fuel outer work now) (called : work.called? = some call)
    (within : work.levels outer = .activation frame :: others)
    (found : now.heap.natives.get ref.handle = .ok n) (runs : n.body = .script .getNested)
    (ran : (Plan.callNative ref call.arguments call.caller call.depth).run (Vm.call fuel) now
      = .ok [.closure made] after)
    : ∃ c d, now.heap.closures.get frame.closure.handle = .ok c
        ∧ after.heap.closures.get made.handle = .ok d ∧ d.environment = c.environment

/-- However a native is reached, it is told of the closure of the activation that it is reached from,
and of nobody if that is through an access to a field.
-/
theorem HostProgram.tells_callers (session : HostProgram) (limit : Nat) (start : Machine)
    : session.Telling limit start where
  natives := Plan.of_reaches
  callers comes called := comes.tells.call called
  activates comes called within found runs ran := by
    rw [comes.tells.call called, within] at ran
    exact Plan.getNested_makes found runs ran

end HookMachine
