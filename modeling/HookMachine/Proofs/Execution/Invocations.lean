import HookMachine.Proofs.Deeds.Courses

/-!
What is said of every call that an operation makes. What handles an access to a field is called for
nobody, one deeper than where the access is made; natives, and tables that can be called, make their
calls for whom they are called themselves, one deeper than they are called.
-/

namespace HookMachine

variable {α β : Type} {P Q : Invocation → Prop} {caller : Option ClosureRef} {d : Nat}

/-- Every call of a course is as `P` says, whatever comes back from those before it. -/
def Course.Each (P : Invocation → Prop) : Course α → Prop
  | .ends _ => True
  | .calls call _ next => P call ∧ ∀ results after, (next results after).Each P
  | .asks _ _ next => ∀ reply after, (next reply after).Each P

namespace Course.Each

variable {course : Course α}

/-- By induction over the calls and requests of a course. -/
theorem bind {f : α → Plan β} (each : course.Each P) (rest : ∀ a m, (f a m).Each P)
    : (course.bind f).Each P := by
  induction course with
  | ends outcome =>
      cases outcome with
      | ok a after => exact rest a after
      | error halt after => trivial
  | calls call now next ih => exact ⟨each.1, fun results after => ih results after (each.2 ..)⟩
  | asks request now next ih => exact fun reply after => ih reply after (each ..)

theorem imp (each : course.Each P) (implies : ∀ call, P call → Q call) : course.Each Q := by
  induction course with
  | ends outcome => trivial
  | calls call now next ih =>
      exact ⟨implies call each.1, fun results after => ih results after (each.2 ..)⟩
  | asks request now next ih => exact fun reply after => ih reply after (each ..)

end Course.Each

/-- Every call of a plan is as `P` says. -/
structure Plan.Each (P : Invocation → Prop) (plan : Plan α) : Prop where
  course : ∀ m, (plan m).Each P

namespace Plan

-----------------------------------------------------------------------------------------
-- Rules
-----------------------------------------------------------------------------------------

namespace Each

theorem pure (a : α) : (pure a : Plan α).Each P :=
  ⟨fun _ => trivial⟩

theorem lift (x : Vm α) : (liftM x : Plan α).Each P :=
  ⟨fun _ => trivial⟩

theorem andThen {plan : Plan α} {f : α → Plan β} (first : plan.Each P) (rest : ∀ a, (f a).Each P)
    : (plan >>= f).Each P :=
  ⟨fun m => (first.course m).bind fun a => (rest a).course⟩

/-- What makes no call may come first. -/
theorem look {x : Vm α} {f : α → Plan β} (rest : ∀ a, (f a).Each P)
    : ((liftM x : Plan α) >>= f).Each P :=
  (lift x).andThen rest

theorem tryCall {f : Value} {arguments : List Value} (holds : P ⟨f, arguments, caller, d⟩)
    : (Plan.tryCall f arguments caller d).Each P :=
  ⟨fun _ => ⟨holds, fun _ _ => trivial⟩⟩

theorem call {f : Value} {arguments : List Value} (holds : P ⟨f, arguments, caller, d⟩)
    : (Plan.call f arguments caller d).Each P := by
  refine (tryCall holds).andThen fun outcome => ?_
  cases outcome with
  | ok results => exact pure results
  | error fault => exact lift _

theorem ask (request : Request) : (Plan.ask request).Each P :=
  ⟨fun _ _ _ => trivial⟩

end Each

-----------------------------------------------------------------------------------------
-- Fields
-----------------------------------------------------------------------------------------

section

variable (holds : ∀ f arguments, P ⟨f, arguments, none, d + 1⟩)

include holds

/-- A chain is read by induction over how many tables it may visit. -/
theorem index_each (object key : Value) : (index object key d).Each P := by
  unfold index
  generalize Vm.maxChain = limit
  induction limit generalizing object with
  | zero => exact .lift _
  | succ limit ih =>
      cases object with
      | table ref =>
          refine .look fun t => ?_
          split
          · exact .pure _
          · refine .look fun next => ?_
            split
            · exact .pure _
            · split
              · exact (Each.call (holds ..)).andThen fun _ => .pure _
              · exact ih next
      | _ => exact .lift _

/-- A chain is written by induction over how many tables it may visit. -/
theorem assign_each (object key value : Value) : (assign object key value d).Each P := by
  refine .look fun _ => ?_
  generalize Vm.maxChain = limit
  induction limit generalizing object with
  | zero => exact .lift _
  | succ limit ih =>
      cases object with
      | table ref =>
          refine .look fun _ => .look fun t => .look fun next => ?_
          split
          · split
            · exact .look fun _ => .lift _
            · exact .lift _
          · split
            · exact (Each.call (holds ..)).andThen fun _ => .pure _
            · exact ih next
      | _ => exact .lift _

end

-----------------------------------------------------------------------------------------
-- Natives
-----------------------------------------------------------------------------------------

section

variable (holds : ∀ f arguments, P ⟨f, arguments, caller, d⟩)

include holds

theorem fire_each (arguments : List Value) (index : Nat)
    : (fire arguments caller d index).Each P := by
  refine .look fun m => ?_
  split
  · exact .pure _
  · exact (Each.tryCall (holds ..)).andThen fun _ => .pure _

/-- By induction over the connections. -/
theorem fireAll_each (arguments : List Value) (indices : List Nat)
    : (fireAll arguments caller d indices).Each P := by
  induction indices with
  | nil => exact .pure _
  | cons index rest ih =>
      exact (fire_each holds arguments index).andThen fun _ => ih.andThen fun _ => .pure _

theorem script_each (f : ScriptFunction) (arguments : List Value)
    : (script caller d f arguments).Each P := by
  cases f with
  | fireSignal =>
      exact .look fun signal => (Each.look fun _ => fireAll_each holds _ _).andThen fun _ => .pure _
  | _ => exact .lift _

theorem method_each (m : ConnectionMethod) (index : Nat) (owner : TableRef) (arguments : List Value)
    : (method caller d m index owner arguments).Each P := by
  cases m with
  | fire => exact (fire_each holds _ index).andThen fun _ => .pure _
  | _ => exact .lift _

/-- By induction over what a function of the host does. -/
theorem program_each (body : HostProgram) : (program caller d body).Each P := by
  induction body with
  | finish results => exact .pure results
  | fail fault => exact .lift _
  | call f arguments next ih => exact (Each.tryCall (holds ..)).andThen ih
  | ask request next ih => exact (Each.ask request).andThen ih
  | create name body bound next _ ih => exact .look ih

end

section

variable (holds : ∀ f arguments, P ⟨f, arguments, caller, d + 1⟩)

include holds

theorem body_each (arguments : List Value) (body : NativeBody)
    : (Plan.body arguments caller d body).Each P := by
  cases body with
  | script f =>
      refine .look fun m => ?_
      split
      · exact script_each holds f arguments
      · exact .look fun _ => script_each holds f arguments
  | method m index owner =>
      refine .look fun now => ?_
      split
      · exact method_each holds m index owner arguments
      · exact .look fun _ => method_each holds m index owner arguments
  | wrapper inner => exact .call (holds ..)
  | host f => exact program_each holds _

theorem callOther_each (target : Value) (arguments : List Value)
    : (callOther target arguments caller d).Each P := by
  cases target with
  | native ref => exact .look fun n => body_each holds arguments n.body
  | table ref =>
      refine .look fun handler => ?_
      split
      · exact .call (holds ..)
      · exact .look fun _ => .call (holds ..)
  | _ => exact .lift _

end

-----------------------------------------------------------------------------------------
-- Instructions and calls
-----------------------------------------------------------------------------------------

theorem execute_each (frame : Frame) (op : Opcode) (i : Instruction)
    (holds : ∀ f arguments, P ⟨f, arguments, none, frame.depth + 1⟩)
    : (execute frame op i).Each P := by
  cases op with
  | getGlobal => exact .look fun key => (index_each holds _ key).andThen fun _ => .pure _
  | setGlobal => exact .look fun key => (assign_each holds _ key _).andThen fun _ => .pure _
  | getTable => exact .look fun key => (index_each holds _ key).andThen fun _ => .pure _
  | setTable =>
      exact .look fun key => .look fun value => (assign_each holds _ key value).andThen fun _ => .pure _
  | self => exact .look fun key => (index_each holds _ key).andThen fun _ => .pure _
  | _ => exact .lift _

theorem start_each (call : Invocation)
    (holds : ∀ f arguments, P ⟨f, arguments, call.caller, call.depth + 1⟩)
    : (start call).Each P := by
  refine .look fun _ => .look fun target => ?_
  split
  · exact .look fun frame => .pure _
  · exact (callOther_each holds _ _).andThen fun _ => .pure _

theorem invokes_each (frame : Frame) (i : Instruction) (resume : Resume) (callers : List Layer)
    (holds : ∀ f arguments, P ⟨f, arguments, some frame.closure, frame.depth + 2⟩)
    : (invokes frame i resume callers).Each P := by
  refine .look fun _ => .look fun target => ?_
  split
  · exact .look fun callee => .pure _
  · exact (callOther_each holds _ _).andThen fun _ => .pure _

variable {top : Layer} {i : Instruction}

theorem advance_each_of_call (callers : List Layer)
    (calls : i.operation? = some .call ∨ i.operation? = some .tailCall)
    (holds : ∀ f arguments, P ⟨f, arguments, some top.frame.closure, top.frame.depth + 2⟩)
    : (advance top callers i).Each P := by
  obtain ⟨resume, same⟩ := advance_of_call callers calls
  rw [same]
  exact invokes_each (past top).frame i resume _ holds

theorem advance_each_of_other (callers : List Layer)
    (other : ¬(i.operation? = some .call ∨ i.operation? = some .tailCall))
    (holds : ∀ f arguments, P ⟨f, arguments, none, top.frame.depth + 1⟩)
    : (advance top callers i).Each P := by
  have as := advance_as top callers i
  generalize advance top callers i = plan at as ⊢
  cases as with
  | calls resume called => exact absurd called other
  | executes op => exact (execute_each (past top).frame op i holds).andThen fun _ => .pure _
  | returns results => exact .pure _
  | fails fault => exact .lift _

end Plan
end HookMachine
