import HookMachine.Proofs.Bounds.Course
import HookMachine.Proofs.Bounds.Surface

/-!
The points that a run comes by: where calls begin and fail, where instructions execute, where
requests are made and answered, and where entries from the host begin and end. A request that
enters the machine anew is laid out as an errand, which tells of its entries.
-/

namespace EStateM.Result

variable {ε σ α β : Type}

/-- The state that is left in the end. -/
def last : EStateM.Result ε σ α → σ
  | .ok _ after | .error _ after => after

/-- What is listed of what follows a result; nothing follows an error. -/
def sequel (outcome : EStateM.Result ε σ α) (more : α → σ → List β) : List β :=
  match outcome with
  | .ok a after => more a after
  | .error .. => []

end EStateM.Result

namespace HookMachine

variable {α β : Type}

/-- What a point of a run is about. -/
inductive Mark where
  /-- A call begins. -/
  | called (call : Invocation)
  /-- An instruction has been charged for and executes next. -/
  | executes (frame : Frame) (i : Instruction)
  /-- A call, or what is done within an entry from the host, has ended in a fault. -/
  | failed (fault : Fault)
  /-- A host or a native makes a request. -/
  | asks (request : Request)
  | answered (request : Request) (reply : Except Failure request.Answer)
  /-- An entry from the host has begun. -/
  | entered
  /-- An entry from the host has ended, in whatever way. -/
  | left

/-- A point of a run, and the machine there. -/
structure Point where
  mark : Mark
  machine : Machine

-----------------------------------------------------------------------------------------
-- Errands
-----------------------------------------------------------------------------------------

/-- What answering a request comes to: entries from the host, one after the other, and what is
done between them.
-/
inductive Errand (α : Type) where
  | ends (outcome : EStateM.Result (Halt Failure) Machine α)
  /-- Enters the machine `now` to do what `body` lays out. -/
  | enters (body : Plan (List Value)) (now : Machine)
      (next : Except Fault (List Value) → Machine → Errand α)

namespace Errand

variable {invoke : Invoke}

/-- How an errand ends if calls are made by `invoke`. -/
def run (invoke : Invoke) : Errand α → EStateM.Result (Halt Failure) Machine α
  | .ends outcome => outcome
  | .enters body now next =>
      match Vm.enter (body.run invoke) now with
      | .ok results after => (next (.ok results) after).run invoke
      | .error (.failed fault) after => (next (.error fault) after).run invoke
      | .error .outOfFuel after => .error .outOfFuel after

/-- Enters the machine once and turns the results into an answer. -/
def once (body : Plan (List Value)) (answer : List Value → α) (m : Machine) : Errand α :=
  .enters body m fun
    | .ok results, after => .ends (.ok (answer results) after)
    | .error fault, after => .ends (.error (.failed (.fault fault)) after)

/-- Fires a connection from the host, and goes on with whether it ran. -/
def fire (arguments : List Value) (index : Nat) (next : Bool → Machine → Errand α)
    (m : Machine)
    : Errand α :=
  match ConnectionRegistry.callback? m.connections index with
  | none => next false m
  | some callback => .enters (Plan.call callback arguments none 0) m fun _ after => next true after

/-- Fires connections one after the other, and goes on with how many ran. -/
def fireAll (arguments : List Value)
    : List Nat → (Nat → Machine → Errand α) → Machine → Errand α
  | [], next, m => next 0 m
  | index :: rest, next, m =>
      fire arguments index (fun ran =>
        fireAll arguments rest fun others => next (others + if ran then 1 else 0)) m

end Errand

/-- What answering a request comes to. -/
def Request.errand : (request : Request) → Machine → Errand request.Answer
  | .call f arguments, m => .once (Plan.call f arguments none 0) id m
  | .index object key, m =>
      .once (do return [← Plan.index object key 0]) (·.headD .nil) m
  | .assign object key value, m =>
      .once (do Plan.assign object key value 0; return []) (fun _ => ()) m
  | .readShared name, m =>
      match Environment.find .runtime m with
      | .ok ref after =>
          .once (do return [← Plan.index (.table ref) (.string name) 0]) (·.headD .nil) after
      | .error halt after => .ends (.error halt after)
  | .fire position arguments, m =>
      .fire arguments position (fun ran after => .ends (.ok ran after)) m
  | .fireSignal signal arguments, m =>
      .fireAll arguments (ConnectionRegistry.ofSignal m.connections signal)
        (fun count after => .ends (.ok count after)) m
  | request, m => .ends (serve (fun _ _ _ _ => pure []) request m)

-----------------------------------------------------------------------------------------
-- Points
-----------------------------------------------------------------------------------------

/-- The points of a course whose calls are made by `invoke` and have the points that `record`
says; those of requests are what `requested` says.
-/
def Course.trace (invoke : Invoke) (record : Invocation → Machine → List Point)
    (requested : Request → Machine → List Point)
    : Course α → List Point
  | .ends _ => []
  | .calls call now next =>
      record call now
        ++ (Run.attempt (call.run invoke) now).sequel fun results after =>
          (next results after).trace invoke record requested
  | .asks request now next =>
      requested request now
        ++ (answer invoke request now).sequel fun reply after =>
          (next reply after).trace invoke record requested

/-- The point at which an operation has failed, if it has. -/
def failures : EStateM.Result (Halt Fault) Machine α → List Point
  | .error (.failed fault) after => [⟨.failed fault, after⟩]
  | _ => []

/-- The points of an errand. What is done within an entry makes no request itself. -/
def Errand.trace (invoke : Invoke) (record : Invocation → Machine → List Point)
    : Errand α → List Point
  | .ends _ => []
  | .enters body now next =>
      ⟨.entered, now.enter⟩ :: (body now.enter).trace invoke record (fun _ _ => [])
        ++ failures (body.run invoke now.enter)
        ++ ⟨.left, (Vm.enter (body.run invoke) now).last⟩
          :: (Run.attempt (Vm.enter (body.run invoke)) now).sequel fun results after =>
            (next results after).trace invoke record

/-- The points of a request, from where it is made to where it is answered. -/
def Request.trace (invoke : Invoke) (record : Invocation → Machine → List Point)
    (request : Request) (m : Machine)
    : List Point :=
  ⟨.asks request, m⟩ :: (request.errand m).trace invoke record
    ++ (Course.answer invoke request m).sequel fun reply after =>
      [⟨.answered request reply, after⟩]

/-- The points of a run of a stack. -/
def stackTrace (invoke : Invoke) (record : Invocation → Machine → List Point)
    : Nat → Layer → List Layer → Machine → List Point
  | 0, _, _, _ => []
  | fuel + 1, top, callers, m =>
      (Vm.fetch top.frame m).sequel fun i charged =>
        ⟨.executes top.frame i, charged⟩
          :: (Plan.advance top callers i charged).trace invoke record
            (Request.trace invoke record)
          ++ ((Plan.advance top callers i).run invoke charged).sequel fun
            | .inl _, _ => []
            | .inr (top, callers), after => stackTrace invoke record fuel top callers after

/-- The points of a call, all nested calls and entries included. -/
def callTrace : Nat → Invocation → Machine → List Point
  | 0, _, _ => []
  | fuel + 1, call, m =>
      ⟨.called call, m⟩
        :: (Plan.start call m).trace (Vm.call fuel) (callTrace fuel)
          (Request.trace (Vm.call fuel) (callTrace fuel))
        ++ ((Plan.start call).run (Vm.call fuel) m).sequel (fun
          | .inl _, _ => []
          | .inr frame, after =>
              stackTrace (Vm.call fuel) (callTrace fuel) fuel ⟨frame, .forward⟩ [] after)
        ++ failures (call.run (Vm.call (fuel + 1)) m)

/-- The points of a session of the host. -/
def HostProgram.trace (fuel : Nat) (session : HostProgram) (m : Machine) : List Point :=
  (Plan.program none 0 session m).trace (Vm.call fuel) (callTrace fuel)
    (Request.trace (Vm.call fuel) (callTrace fuel))

-----------------------------------------------------------------------------------------
-- Traces in a row
-----------------------------------------------------------------------------------------

section

variable {invoke : Invoke} {record : Invocation → Machine → List Point}
  {requested : Request → Machine → List Point}

/-- The points of a course that goes on where another ends, by induction over the first. -/
theorem Course.trace_bind (course : Course α) (f : α → Plan β)
    : (course.bind f).trace invoke record requested
      = course.trace invoke record requested
        ++ (course.run invoke).sequel fun a after => (f a after).trace invoke record requested := by
  induction course with
  | ends outcome => cases outcome <;> rfl
  | calls call now next ih =>
      simp only [bind, trace, run, List.append_assoc]
      cases Run.attempt (call.run invoke) now with
      | ok results after => exact congrArg _ (ih results after)
      | error halt after => rfl
  | asks request now next ih =>
      simp only [bind, trace, run, List.append_assoc]
      cases answer invoke request now with
      | ok reply after => exact congrArg _ (ih reply after)
      | error halt after => rfl

/-- What becomes of a result is no point. -/
theorem Course.trace_bind_pure (course : Course α) (f : α → β)
    : (course.bind fun a => (pure (f a) : Plan β)).trace invoke record requested
      = course.trace invoke record requested := by
  rw [trace_bind]
  cases course.run invoke <;> exact List.append_nil _

namespace Plan

variable (f : Value) (arguments : List Value) (caller : Option ClosureRef) (depth : Nat) (m : Machine)

theorem trace_tryCall
    : (tryCall f arguments caller depth m).trace invoke record requested
      = record ⟨f, arguments, caller, depth⟩ m := by
  change _ ++ EStateM.Result.sequel _ _ = _
  cases Run.attempt (Invocation.run ⟨f, arguments, caller, depth⟩ invoke) m <;>
    exact List.append_nil _

theorem trace_call
    : (call f arguments caller depth m).trace invoke record requested
      = record ⟨f, arguments, caller, depth⟩ m := by
  change ((tryCall f arguments caller depth m).bind _).trace invoke record requested = _
  rw [Course.trace_bind, trace_tryCall]
  rcases (tryCall f arguments caller depth m).run invoke with ⟨⟨fault⟩ | ⟨results⟩, after⟩ | ⟨halt, after⟩ <;>
    exact List.append_nil _

end Plan
end

-----------------------------------------------------------------------------------------
-- Natives
-----------------------------------------------------------------------------------------

/-- A call of `f` in a machine comes down to a native. -/
def Machine.Reaches (m : Machine) (f : Value) (n : Native) : Prop :=
  ∃ ref after, Vm.resolve f m = .ok (.native ref) after
    ∧ after.heap.natives.get ref.handle = .ok n

/-- A native is called at a point, by bytecode or otherwise. -/
def Point.Calls (point : Point) (n : Native) : Prop :=
  match point.mark with
  | .called call => point.machine.Reaches call.f n
  | .executes frame i =>
      (i.operation? = some .call ∨ i.operation? = some .tailCall)
        ∧ point.machine.Reaches (frame.read i.a) n
  | _ => False

/-- A native that was looked up is there. -/
theorem Vm.get_of_native {ref : NativeRef} {n : Native} {m after : Machine}
    (ran : Vm.native ref m = .ok n after)
    : m.heap.natives.get ref.handle = .ok n := by
  rcases found : m.heap.natives.get ref.handle with miss | held
  · rw [Vm.native_of_miss found] at ran
    cases ran
  · rw [Vm.native_of_get found] at ran
    cases ran
    rfl

/-- What lies within the limit passes the check, which changes nothing. -/
theorem Vm.checkDepth_ok {depth : Nat} {m after : Machine}
    (ran : Vm.checkDepth depth m = .ok () after)
    : after = m := by
  unfold Vm.checkDepth at ran
  rw [Run.bind_get] at ran
  split at ran
  · cases ran
  · cases ran
    rfl

-----------------------------------------------------------------------------------------
-- Requests are their errands
-----------------------------------------------------------------------------------------

theorem Request.errand_aside {request : Request} (aside : request.enters = false)
    (invoke : Invoke) (m : Machine)
    : request.errand m = .ends (serve invoke request m) := by
  cases request with
  | call | index | assign | readShared | fire | fireSignal => simp [Request.enters] at aside
  | _ => rfl

namespace Errand

variable {invoke : Invoke} {m : Machine}

theorem run_once (body : Plan (List Value)) (answer : List Value → α)
    : (once body answer m).run invoke
      = Run.mapError Failure.fault (answer <$> Vm.enter (body.run invoke)) m := by
  change _ = Run.mapError _ (EStateM.map _ _) m
  unfold EStateM.map Run.mapError
  rcases ran : Vm.enter (body.run invoke) m with ⟨results, after⟩ | ⟨fault | _, after⟩ <;>
    simp only [once, run, ran]

/-- Goes on as an errand after running code as the host does. -/
def after (x : Vm α) (next : α → Machine → Errand β) (invoke : Invoke) (m : Machine)
    : EStateM.Result (Halt Failure) Machine β :=
  match Run.mapError Failure.fault x m with
  | .ok a after => (next a after).run invoke
  | .error halt after => .error halt after

theorem after_ends (x : Vm α)
    : after x (fun a last => .ends (.ok a last)) invoke m = Run.mapError Failure.fault x m := by
  unfold after
  cases Run.mapError Failure.fault x m <;> rfl

/-- Firing a connection and going on is firing it as an errand. -/
theorem run_fire (arguments : List Value) (index : Nat) (next : Bool → Machine → Errand α)
    : (fire arguments index next m).run invoke
      = after (Connection.fire (Vm.callFromHost invoke · arguments) index) next invoke m := by
  unfold fire after Run.mapError Connection.fire
  rw [Run.bind_get]
  cases ConnectionRegistry.callback? m.connections index with
  | none => rfl
  | some callback =>
      simp only [run, Plan.run_call, bind, EStateM.bind, Run.attempt, Vm.callFromHost]
      rcases Vm.enter (invoke callback arguments none 0) m with
        ⟨results, after⟩ | ⟨fault | _, after⟩ <;> rfl

/-- Firing connections and going on is firing them as an errand, by induction over their list. -/
theorem run_fireAll (arguments : List Value) (indices : List Nat)
    (next : Nat → Machine → Errand α)
    : (fireAll arguments indices next m).run invoke
      = after (Connection.fireAll (Vm.callFromHost invoke · arguments) indices) next invoke m := by
  induction indices generalizing next m with
  | nil => rfl
  | cons index rest ih =>
      change (fire ..).run invoke = _
      rw [run_fire]
      change _ = after (EStateM.bind _ fun ran => EStateM.bind _ _) next invoke m
      unfold after Run.mapError EStateM.bind
      rcases Connection.fire (Vm.callFromHost invoke · arguments) index m with
        ⟨ran, middle⟩ | ⟨fault | _, middle⟩
      · simp only [ih]
        unfold after Run.mapError
        dsimp only
        rcases Connection.fireAll (Vm.callFromHost invoke · arguments) rest middle with
          ⟨others, last⟩ | ⟨fault | _, last⟩ <;> rfl
      · rfl
      · rfl

end Errand

theorem Vm.enter_map (f : α → β) (x : Vm α) : Vm.enter (f <$> x) = f <$> Vm.enter x := by
  funext m
  change Vm.enter (EStateM.map f x) m = EStateM.map f (Vm.enter x) m
  simp only [Vm.enter, EStateM.map]
  rcases x m.enter with ⟨a, after⟩ | ⟨halt, after⟩ <;> rfl

/-- Entering to read a field takes its value out of the results again. -/
theorem Vm.enter_index (invoke : Invoke) (object key : Value)
    : (·.headD .nil) <$> Vm.enter
        ((do return [← Plan.index object key 0] : Plan (List Value)).run invoke)
      = Vm.enter (Vm.index invoke object key 0) := by
  rw [Plan.run_bind, Plan.run_index]
  change _ <$> Vm.enter (Vm.index invoke object key 0 >>= fun value => pure [value]) = _
  rw [bind_pure_comp, Vm.enter_map, ← comp_map]
  exact id_map _

/-- Answering a request is running its errand. -/
theorem serve_eq_errand (invoke : Invoke) (request : Request) (m : Machine)
    : serve invoke request m = (request.errand m).run invoke := by
  cases request with
  | call f arguments =>
      change _ = (Errand.once _ _ m).run invoke
      rw [Errand.run_once, Plan.run_call, id_map]
      rfl
  | index object key =>
      change _ = (Errand.once _ _ m).run invoke
      rw [Errand.run_once, Vm.enter_index]
      rfl
  | assign object key value =>
      change _ = (Errand.once _ _ m).run invoke
      rw [Errand.run_once, Plan.run_bind, Plan.run_assign]
      change _ = Run.mapError _ (_ <$> Vm.enter (_ >>= fun _ => pure [])) m
      rw [bind_pure_comp, Vm.enter_map, ← comp_map]
      exact congrArg (Run.mapError _ · m) (id_map _).symm
  | readShared name =>
      change EStateM.bind (Environment.find .runtime) _ m = _
      simp only [EStateM.bind, Request.errand]
      rcases Environment.find .runtime m with ⟨ref, after⟩ | ⟨halt, after⟩
      · dsimp only
        rw [Errand.run_once, Vm.enter_index]
        rfl
      · rfl
  | fire position arguments =>
      have fires := @Errand.run_fire _ invoke m arguments position
        (fun ran after => Errand.ends (.ok ran after))
      exact (fires.trans (Errand.after_ends _)).symm
  | fireSignal signal arguments =>
      have fires := @Errand.run_fireAll _ invoke m arguments
        (ConnectionRegistry.ofSignal m.connections signal)
        (fun count after => Errand.ends (.ok count after))
      exact (fires.trans (Errand.after_ends _)).symm
  | _ => rfl

end HookMachine
