import HookMachine.Proofs.Execution.Trace

/-!
Runs that propagate what goes wrong. Where every native fails once a call of it has failed, a call
fails by every fault that any call within it fails by.
-/

namespace HookMachine

variable {α β : Type}

/-- A program of the host that reaches back into the machine by calls only, and fails as they do. -/
inductive HostProgram.Propagates : HostProgram → Prop
  | finish (results : List Value) : Propagates (.finish results)
  | fail (fault : Fault) : Propagates (.fail fault)
  | call {f arguments next} (fails : ∀ fault, next (.error fault) = .fail fault)
    (rest : ∀ results, Propagates (next (.ok results)))
    : Propagates (.call f arguments next)
  | ask {request next} (aside : request.enters = false) (rest : ∀ reply, Propagates (next reply))
    : Propagates (.ask request next)
  | create {name body bound next} (rest : ∀ made, Propagates (next made))
    : Propagates (.create name body bound next)

/-- A native that fails as its calls do. Firing a connection goes on after a call that fails. -/
def Native.Propagates (n : Native) : Prop :=
  match n.body with
  | .script f => f ≠ .fireSignal
  | .method method _ _ => method ≠ .fire
  | .wrapper _ => True
  | .host f => ∀ caller arguments, (f caller arguments).Propagates

/-- A course that ends where a call of it fails, and makes no request that enters anew. -/
inductive Course.Strict : Course α → Prop
  | ends (outcome : EStateM.Result (Halt Fault) Machine α) : Strict (.ends outcome)
  | calls {call now next}
    (fails : ∀ fault after, next (.error fault) after = .ends (.error (.failed fault) after))
    (rest : ∀ results after, Strict (next (.ok results) after))
    : Strict (.calls call now next)
  | asks {request now next} (aside : request.enters = false)
    (rest : ∀ reply after, Strict (next reply after))
    : Strict (.asks request now next)

/-- Results that are only passed on in another form. -/
theorem Course.bind_map {γ : Type} (c : Course α) (g : α → β) (f : β → Plan γ)
    : (c.bind fun a => (pure (g a) : Plan β)).bind f = c.bind fun a => f (g a) := by
  induction c with
  | ends outcome => cases outcome <;> rfl
  | calls call now next ih => exact congrArg _ (funext fun o => funext fun after => ih o after)
  | asks request now next ih => exact congrArg _ (funext fun o => funext fun after => ih o after)

/-- The courses of a plan are strict. -/
structure Plan.Strict (plan : Plan α) : Prop where
  course : ∀ m, (plan m).Strict

-----------------------------------------------------------------------------------------
-- Strict plans
-----------------------------------------------------------------------------------------

namespace Course.Strict

theorem bind {c : Course α} {f : α → Plan β} (strict : c.Strict)
    (rest : ∀ a after, (f a after).Strict)
    : (c.bind f).Strict := by
  induction strict with
  | ends outcome =>
      cases outcome with
      | ok a after => exact rest a after
      | error halt after => exact .ends _
  | calls fails _ ih =>
      refine .calls (fun fault after => ?_) ih
      rw [fails]
      rfl
  | asks aside _ ih => exact .asks aside ih

/-- An operation that makes no call comes first; what follows may know how it came about. -/
theorem first {x : Vm α} {f : α → Plan β} {m : Machine}
    (rest : ∀ a after, x m = .ok a after → (f a after).Strict)
    : (((liftM x : Plan α) >>= f) m).Strict := by
  change ((Course.ends (x m)).bind f).Strict
  rcases ran : x m with ⟨a, after⟩ | ⟨halt, after⟩
  · exact rest a after ran
  · exact .ends _

end Course.Strict

namespace Plan

namespace Strict

theorem pure (a : α) : (pure a : Plan α).Strict :=
  ⟨fun _ => .ends _⟩

theorem lift (x : Vm α) : (liftM x : Plan α).Strict :=
  ⟨fun _ => .ends _⟩

theorem bind {plan : Plan α} {f : α → Plan β} (first : plan.Strict) (rest : ∀ a, (f a).Strict)
    : (plan >>= f).Strict :=
  ⟨fun m => (first.course m).bind fun a after => (rest a).course after⟩

/-- A failure keeps what would follow it from being done. -/
theorem failThen (fault : Fault) (f : α → Plan β)
    : ((liftM (Vm.fail fault : Vm α) : Plan α) >>= f).Strict :=
  ⟨fun _ => .ends _⟩

theorem call (f : Value) (arguments : List Value) (caller : Option ClosureRef) (depth : Nat)
    : (Plan.call f arguments caller depth).Strict :=
  ⟨fun _ => .calls (fun _ _ => rfl) fun _ _ => .ends _⟩

end Strict

variable (caller : Option ClosureRef) (depth : Nat)

theorem indexChain_strict (key : Value) (limit : Nat) (object : Value)
    : (indexChain key depth limit object).Strict := by
  induction limit generalizing object with
  | zero => exact .lift _
  | succ limit ih =>
      cases object with
      | table ref =>
          refine .bind (.lift _) fun t => ?_
          split
          · exact .pure _
          · refine .bind (.lift _) fun next => ?_
            split
            · exact .pure _
            · split
              · exact .bind (.call ..) fun _ => .pure _
              · exact ih next
      | _ => exact .lift _

theorem assignChain_strict (key value : Value) (limit : Nat) (object : Value)
    : (assignChain key value depth limit object).Strict := by
  induction limit generalizing object with
  | zero => exact .lift _
  | succ limit ih =>
      cases object with
      | table ref =>
          refine .bind (.lift _) fun _ => .bind (.lift _) fun t => .bind (.lift _) fun next => ?_
          split
          · split
            · exact .failThen _ _
            · exact .lift _
          · split
            · exact .bind (.call ..) fun _ => .pure _
            · exact ih next
      | _ => exact .lift _

theorem assign_strict (object key value : Value) : (assign object key value depth).Strict :=
  .bind (.lift _) fun _ => assignChain_strict depth key value Vm.maxChain object

theorem program_strict {program : HostProgram} (propagates : program.Propagates)
    : (Plan.program caller depth program).Strict := by
  induction propagates with
  | finish results => exact .pure _
  | fail fault => exact .lift _
  | @call f arguments next fails _ ih =>
      refine ⟨fun m => .calls (fun fault after => ?_) fun results after => (ih results).course after⟩
      change Plan.program caller depth (next (.error fault)) after = _
      rw [fails]
      rfl
  | ask aside _ ih => exact ⟨fun m => .asks aside fun reply after => (ih reply).course after⟩
  | create _ ih => exact .bind (.lift _) ih

theorem body_strict {n : Native} (propagates : n.Propagates) (arguments : List Value)
    : (body arguments caller depth n.body).Strict := by
  unfold Native.Propagates at propagates
  cases does : n.body with
  | script f =>
      rw [does] at propagates
      refine .bind (.lift _) fun m => ?_
      split
      · cases f with
        | fireSignal => exact absurd rfl propagates
        | _ => exact .lift _
      · exact .failThen _ _
  | method method index owner =>
      rw [does] at propagates
      refine .bind (.lift _) fun m => ?_
      split
      · cases method with
        | fire => exact absurd rfl propagates
        | _ => exact .lift _
      · exact .failThen _ _
  | wrapper inner => exact .call ..
  | host f =>
      rw [does] at propagates
      exact program_strict caller _ (propagates caller arguments)

/-- A call of what is no closure goes strictly in a machine where it comes down to a native that
propagates, if to any.
-/
theorem callOther_strict (target : Value) (arguments : List Value) {m : Machine}
    (propagates : ∀ ref n, target = .native ref → m.heap.natives.get ref.handle = .ok n
      → n.Propagates)
    : (callOther target arguments caller depth m).Strict := by
  cases target with
  | native ref =>
      refine .first fun n after ran => ?_
      have found := Vm.get_of_native ran
      exact (body_strict caller depth (propagates ref n rfl found) arguments).course after
  | table ref =>
      refine .first fun handler after _ => ?_
      split
      · exact (Strict.call ..).course after
      · exact .ends _
  | _ => exact .ends _

/-- What follows when a value is called goes strictly if the natives reached propagate. -/
theorem dispatch_strict {f : Value} (arguments : List Value) {m : Machine}
    (propagates : ∀ n, m.Reaches f n → n.Propagates) {opened : ClosureRef → Plan β}
    (opens : ∀ ref, (opened ref).Strict) {rest : List Value → Plan β}
    (delivers : ∀ results, (rest results).Strict)
    : ((do
          Vm.checkDepth depth
          match ← Vm.resolve f with
          | .closure ref => opened ref
          | target => rest (← callOther target arguments caller depth) : Plan β) m).Strict := by
  refine .first fun _ after checked => ?_
  cases Vm.checkDepth_ok checked
  refine .first fun target after resolved => ?_
  have others (target : Value) (propagates : ∀ ref n, target = .native ref
        → after.heap.natives.get ref.handle = .ok n → n.Propagates)
      : ((do rest (← callOther target arguments caller depth) : Plan β) after).Strict :=
    (callOther_strict caller depth target arguments propagates).bind fun results after =>
      (delivers results).course after
  cases target with
  | closure ref => exact (opens ref).course after
  | native ref =>
      refine others _ fun ref n same found => ?_
      cases same
      exact propagates n ⟨_, after, resolved, found⟩
  | nil | boolean | number | string | table => exact others _ (by simp)

theorem start_strict {call : Invocation} {m : Machine}
    (propagates : ∀ n, Point.Calls ⟨.called call, m⟩ n → n.Propagates)
    : (start call m).Strict :=
  dispatch_strict call.caller call.depth call.arguments propagates
    (fun _ => .bind (.lift _) fun _ => .pure _) fun _ => .pure _

theorem execute_strict (frame : Frame) (op : Opcode) (i : Instruction)
    : (execute frame op i).Strict := by
  cases op with
  | getGlobal | getTable | self =>
      exact .bind (.lift _) fun key => .bind (indexChain_strict ..) fun _ => .pure _
  | setGlobal => exact .bind (.lift _) fun key => .bind (assign_strict ..) fun _ => .pure _
  | setTable =>
      exact .bind (.lift _) fun key => .bind (.lift _) fun value =>
        .bind (assign_strict ..) fun _ => .pure _
  | _ => exact .lift _

theorem advance_strict {top : Layer} (callers : List Layer) {i : Instruction} {m : Machine}
    (propagates : ∀ n, Point.Calls ⟨.executes top.frame i, m⟩ n → n.Propagates)
    : (advance top callers i m).Strict := by
  have called (operation : i.operation? = some .call ∨ i.operation? = some .tailCall)
      (n : Native) (reaches : m.Reaches (top.frame.read i.a) n)
      : n.Propagates :=
    propagates n ⟨operation, reaches⟩
  unfold advance perform
  cases found : i.operation? with
  | none => exact .ends _
  | some op =>
      cases op with
      | call =>
          exact dispatch_strict _ _ _ (called (.inl found)) (fun _ => .bind (.lift _) fun _ => .pure _)
            fun _ => .pure _
      | tailCall =>
          exact dispatch_strict _ _ _ (called (.inr found)) (fun _ => .bind (.lift _) fun _ => .pure _)
            fun _ => .pure _
      | ret => exact .ends _
      | _ =>
          refine (congrArg Course.Strict (Course.bind_map ..)).mpr ?_
          exact ((execute_strict ..).course m).bind fun _ after => .ends _

end Plan

-----------------------------------------------------------------------------------------
-- Points
-----------------------------------------------------------------------------------------

/-- If the natives called at points propagate, a fault that any of the points fails by is what the
outcome fails by.
-/
structure Passing (points : List Point) (outcome : EStateM.Result (Halt Fault) Machine α) : Prop
    where
  faults : (∀ point ∈ points, ∀ n, point.Calls n → n.Propagates)
    → ∀ fault m, ⟨.failed fault, m⟩ ∈ points → ∃ after, outcome = .error (.failed fault) after

namespace Passing

variable {first points : List Point} {outcome : EStateM.Result (Halt Fault) Machine α}
  {m : Machine}

theorem nil : Passing [] outcome :=
  ⟨fun _ _ _ member => by cases member⟩

/-- A point that is no failure, after which natives that it calls propagate. -/
theorem cons {point : Point} (aside : ∀ fault, point.mark ≠ .failed fault)
    (rest : (∀ n, point.Calls n → n.Propagates) → Passing points outcome)
    : Passing (point :: points) outcome := by
  refine ⟨fun propagates fault now member => ?_⟩
  obtain ⟨here, later⟩ := List.forall_mem_cons.mp propagates
  rcases List.mem_cons.mp member with rfl | member
  · exact absurd rfl (aside fault)
  · exact (rest here).faults later fault now member

/-- One operation after the other: nothing of the second comes after a failure. -/
theorem bind {x : Vm α} {f : α → Vm β} {more : α → Machine → List Point}
    (earlier : Passing first (x m))
    (later : ∀ a after, x m = .ok a after → Passing (more a after) (f a after))
    : Passing (first ++ (x m).sequel more) ((x >>= f) m) := by
  refine ⟨fun propagates fault now member => ?_⟩
  obtain ⟨here, further⟩ := List.forall_mem_append.mp propagates
  change ∃ after, EStateM.bind x f m = .error (.failed fault) after
  rcases List.mem_append.mp member with member | member
  · obtain ⟨after, failed⟩ := earlier.faults here fault now member
    exact ⟨after, by simp only [EStateM.bind, failed]⟩
  · rcases ran : x m with ⟨a, after⟩ | ⟨halt, after⟩
    · rw [ran] at member further
      simp only [EStateM.bind, ran]
      exact (later a after ran).faults further fault now member
    · rw [ran] at member
      cases member

end Passing

variable {invoke : Invoke} {record : Invocation → Machine → List Point}

/-- What strict courses come by, by induction over how they are strict. -/
theorem Course.Strict.passing {requested : Request → Machine → List Point} {c : Course α}
    (strict : c.Strict) (calls : ∀ call m, Passing (record call m) (call.run invoke m))
    (requests : ∀ request m fault now, request.enters = false
      → ⟨.failed fault, now⟩ ∉ requested request m)
    : Passing (c.trace invoke record requested) (c.run invoke) := by
  induction strict with
  | ends outcome => exact .nil
  | @calls call now next fails _ ih =>
      let rest (results : List Value) : Vm α := fun after => (next (.ok results) after).run invoke
      let more (results : List Value) (after : Machine) : List Point :=
        (next (.ok results) after).trace invoke record requested
      have passing : Passing (record call now ++ (call.run invoke now).sequel more)
          ((call.run invoke >>= rest) now) :=
        (calls call now).bind fun results after _ => ih results after
      change Passing _ (EStateM.bind (call.run invoke) rest now) at passing
      unfold Course.trace Course.run Run.attempt
      unfold EStateM.bind at passing
      generalize call.run invoke now = outcome at *
      rcases outcome with ⟨results, after⟩ | ⟨fault | _, after⟩
      · exact passing
      · simp only [EStateM.Result.sequel, fails]
        exact passing
      · exact passing
  | @asks request now next aside _ ih =>
      have silent : Passing (requested request now) (Course.answer invoke request now) :=
        ⟨fun _ fault m member => absurd member (requests request now fault m aside)⟩
      refine (@Plan.run_asks _ invoke request now next).symm ▸ ?_
      exact silent.bind fun reply after _ => ih reply after

theorem failures_passing {outcome : EStateM.Result (Halt Fault) Machine α} {points : List Point}
    (passing : Passing points outcome)
    : Passing (points ++ failures outcome) outcome := by
  refine ⟨fun propagates fault m member => ?_⟩
  rcases List.mem_append.mp member with member | member
  · exact passing.faults (List.forall_mem_append.mp propagates).1 fault m member
  · rcases outcome with ⟨a, after⟩ | ⟨other | _, after⟩
    · cases member
    · cases List.mem_singleton.mp member
      exact ⟨m, rfl⟩
    · cases member

/-- A request that enters nothing meets no failure. -/
theorem Request.trace_aside {request : Request} (aside : request.enters = false) (m : Machine)
    (fault : Fault) (now : Machine)
    : ⟨.failed fault, now⟩ ∉ request.trace invoke record m := by
  rw [Request.trace, Request.errand_aside aside invoke]
  unfold Errand.trace EStateM.Result.sequel
  cases Course.answer invoke request m <;> simp

-----------------------------------------------------------------------------------------
-- Calls
-----------------------------------------------------------------------------------------

/-- What a stack comes by, by induction over its instructions. -/
theorem stack_passing (calls : ∀ call m, Passing (record call m) (call.run invoke m))
    (fuel : Nat) (top : Layer) (callers : List Layer) (m : Machine)
    : Passing (stackTrace invoke record fuel top callers m)
        (Vm.runFrames invoke fuel top callers m) := by
  induction fuel generalizing top callers m with
  | zero => exact .nil
  | succ fuel ih =>
      rw [Plan.runFrames_eq, stackTrace]
      have fetched : Passing [] (Vm.fetch top.frame m) := .nil
      refine fetched.bind fun i charged _ => ?_
      refine .cons (by simp) fun propagates => ?_
      have strict := Plan.advance_strict callers propagates
      refine (strict.passing calls fun request m fault now aside =>
        Request.trace_aside aside m fault now).bind fun output after _ => ?_
      rcases output with results | ⟨top, callers⟩
      · exact .nil
      · exact ih top callers after

/-- A call fails by every fault that a call within it fails by, by induction over the fuel. -/
theorem call_passing (fuel : Nat) (call : Invocation) (m : Machine)
    : Passing (callTrace fuel call m) (call.run (Vm.call fuel) m) := by
  induction fuel generalizing call m with
  | zero => exact .nil
  | succ fuel ih =>
      rw [callTrace]
      refine failures_passing ?_
      rw [Plan.call_eq]
      refine .cons (by simp) fun propagates => ?_
      have strict := Plan.start_strict propagates
      refine (strict.passing ih fun request m fault now aside =>
        Request.trace_aside aside m fault now).bind fun begun after _ => ?_
      rcases begun with results | frame
      · exact .nil
      · exact stack_passing ih fuel ⟨frame, .forward⟩ [] after

end HookMachine
