import HookMachine.Proofs.Execution.Monotonicity

/-!
The stack of activations does what plain recursion does. Recursion evaluates every call of an
activation before the activation goes on, with the activation's closure as caller and one
level deeper; a tail call makes the results those of the activation. Either way of calling is
shown to settle whatever the other settles, with one outcome.
-/

namespace HookMachine

open Run (Below Settled)

namespace Vm

/-- Runs an activation alone: what it calls is evaluated by `invoke` before it goes on. -/
def runAlone (invoke : Invoke) : Nat → Frame → Vm (List Value)
  | 0, _ => exhausted
  | fuel + 1, frame => do
      match ← step invoke frame with
      | .next frame => runAlone invoke fuel frame
      | .finish results => return results
      | .call frame f arguments resume =>
          let results ← invoke f arguments (some frame.closure) (frame.depth + 1)
          match resume with
          | .store a c => runAlone invoke fuel (frame.takeResults a c results)
          | .forward => return results

/-- Calls a value for the closure `caller` at a depth, by recursion and without a stack. -/
def evaluate : Nat → Invoke
  | 0, _, _, _, _ => exhausted
  | fuel + 1, f, arguments, caller, depth => do
      checkDepth depth
      match ← resolve f with
      | .closure ref => runAlone (evaluate fuel) fuel (← openFrame ref arguments depth)
      | target => callOther (evaluate fuel) target arguments caller depth

theorem runAlone_below {first second : Invoke} (below : first.Below second) {fuel more : Nat}
    (le : fuel ≤ more) (frame : Frame)
    : Below (runAlone first fuel frame) (runAlone second more frame) := by
  induction fuel generalizing more frame with
  | zero => exact .outOfFuel _
  | succ fuel ih =>
      obtain ⟨more, rfl⟩ := Nat.exists_eq_add_of_le' (Nat.lt_of_lt_of_le fuel.succ_pos le)
      have ih := ih (Nat.le_of_succ_le_succ le)
      refine .bind (step_below below frame) fun flow => ?_
      cases flow with
      | next frame => exact ih frame
      | finish results => exact .refl _
      | call frame f arguments resume =>
          refine .bind (below ..) fun results => ?_
          cases resume with
          | store a c => exact ih _
          | forward => exact .refl _

theorem evaluate_below {fuel more : Nat} (le : fuel ≤ more)
    : Invoke.Below (evaluate fuel) (evaluate more) := by
  induction fuel generalizing more with
  | zero => exact fun _ _ _ _ => .outOfFuel _
  | succ fuel ih =>
      obtain ⟨more, rfl⟩ := Nat.exists_eq_add_of_le' (Nat.lt_of_lt_of_le fuel.succ_pos le)
      have below := ih (Nat.le_of_succ_le_succ le)
      intro f arguments caller depth
      refine .bind (.refl _) fun _ => .bind (.refl _) fun target => ?_
      split
      · exact .bind (.refl _) fun _ => runAlone_below below (Nat.le_of_succ_le_succ le) _
      · exact callOther_below below ..

-----------------------------------------------------------------------------------------
-- Stacks, one call at a time
-----------------------------------------------------------------------------------------

/-- Goes on with a stack that results are delivered to. -/
def deliver (invoke : Invoke) (fuel : Nat) (results : List Value) (resume : Resume)
    (callers : List Layer)
    : Vm (List Value) :=
  match unwind results resume callers with
  | .inl results => pure results
  | .inr (top, callers) => runFrames invoke fuel top callers

/-- Goes on with a call on top of a stack. -/
def enterCall (invoke : Invoke) (fuel : Nat) (f : Value) (arguments : List Value)
    (caller : Option ClosureRef) (depth : Nat) (resume : Resume) (callers : List Layer)
    : Vm (List Value) := do
  checkDepth depth
  match ← resolve f with
  | .closure ref => runFrames invoke fuel ⟨← openFrame ref arguments depth, resume⟩ callers
  | target =>
      let results ← callOther invoke target arguments caller depth
      deliver invoke fuel results resume callers

/-- A stack goes on by what the instruction on its top asks for. -/
theorem runFrames_succ (invoke : Invoke) (fuel : Nat) (top : Layer) (callers : List Layer)
    : runFrames invoke (fuel + 1) top callers
      = step invoke top.frame >>= fun
        | .next frame => runFrames invoke fuel { top with frame } callers
        | .finish results => deliver invoke fuel results top.resume callers
        | .call frame f arguments resume =>
            enterCall invoke fuel f arguments (some frame.closure) (frame.depth + 1) resume
              ({ top with frame } :: callers) := by
  rw [runFrames, advance, bind_assoc]
  refine congrArg _ (funext fun flow => ?_)
  cases flow with
  | next frame => simp
  | finish results =>
      rcases unwound : unwind results top.resume callers with _ | ⟨_, _⟩ <;>
        simp [deliver, unwound]
  | call frame f arguments resume =>
      simp only [bind_assoc, enterCall]
      refine congrArg _ (funext fun _ => congrArg _ (funext fun target => ?_))
      cases target with
      | closure ref => simp
      | _ =>
          simp only [bind_assoc, pure_bind]
          rfl

/-- A call starts on an empty stack. -/
theorem call_succ (fuel : Nat) (f : Value) (arguments : List Value)
    (caller : Option ClosureRef) (depth : Nat)
    : call (fuel + 1) f arguments caller depth
      = enterCall (call fuel) fuel f arguments caller depth .forward [] := by
  simp only [call, enterCall]
  refine congrArg _ (funext fun _ => congrArg _ (funext fun target => ?_))
  cases target <;> simp [deliver, unwind]

theorem deliver_below {first second : Invoke} (below : first.Below second) {fuel more : Nat}
    (le : fuel ≤ more) (results : List Value) (resume : Resume) (callers : List Layer)
    : Below (deliver first fuel results resume callers)
        (deliver second more results resume callers) := by
  unfold deliver
  split
  · exact .refl _
  · exact runFrames_below below le _ _

theorem enterCall_below {first second : Invoke} (below : first.Below second)
    {fuel more : Nat} (le : fuel ≤ more) (f : Value) (arguments : List Value)
    (caller : Option ClosureRef) (depth : Nat) (resume : Resume) (callers : List Layer)
    : Below (enterCall first fuel f arguments caller depth resume callers)
        (enterCall second more f arguments caller depth resume callers) := by
  refine .bind (.refl _) fun _ => .bind (.refl _) fun target => ?_
  split
  · exact .bind (.refl _) fun _ => runFrames_below below le _ _
  · exact .bind (callOther_below below ..) fun _ => deliver_below below le _ _ _

-----------------------------------------------------------------------------------------
-- The stack settles what recursion settles
-----------------------------------------------------------------------------------------

/-- Recursion on one activation, with a stack below it, is a run of the stack with enough
fuel, if the calls that the activation makes are; by induction over its instructions.
-/
theorem runAlone_deliver_below {fuel calls : Nat}
    (nested : ∀ invoke, Invoke.Below (evaluate fuel) invoke
      → ∀ rest f arguments caller depth resume callers,
        Below (evaluate fuel f arguments caller depth
            >>= fun results => deliver invoke rest results resume callers)
          (enterCall invoke (rest + calls) f arguments caller depth resume callers))
    (instructions : Nat)
    : ∃ steps, ∀ invoke, Invoke.Below (evaluate fuel) invoke
        → ∀ rest frame resume callers,
          Below (runAlone (evaluate fuel) instructions frame
              >>= fun results => deliver invoke rest results resume callers)
            (runFrames invoke (rest + steps) ⟨frame, resume⟩ callers) := by
  induction instructions with
  | zero => exact ⟨0, fun _ _ _ _ _ _ => .outOfFuel _⟩
  | succ instructions ih =>
      obtain ⟨steps, ih⟩ := ih
      refine ⟨steps + calls + 1, fun invoke below rest frame resume callers => ?_⟩
      rw [runAlone, bind_assoc, ← Nat.add_assoc, runFrames_succ]
      refine .bind (step_below below frame) fun flow => ?_
      have ih (frame : Frame) := ih invoke below rest frame resume callers
      cases flow with
      | next frame => exact (ih frame).trans (runFrames_below (.refl invoke) (by omega) _ _)
      | finish results =>
          rw [pure_bind]
          exact deliver_below (.refl invoke) (Nat.le_add_right ..) _ _ _
      | call frame f arguments next =>
          have entered :=
            nested invoke below (rest + steps) f arguments (some frame.closure)
              (frame.depth + 1) next (⟨frame, resume⟩ :: callers)
          rw [Nat.add_assoc] at entered
          refine .trans ?_ entered
          rw [bind_assoc]
          refine .bind (.refl _) fun results => ?_
          cases next with
          | store a c => exact ih (frame.takeResults a c results)
          | forward =>
              rw [pure_bind]
              exact deliver_below (.refl invoke) (Nat.le_add_right ..) results resume callers

/-- A call by recursion, with a stack below it, is a call on the stack with enough fuel. -/
theorem evaluate_deliver_below (fuel : Nat)
    : ∃ steps, ∀ invoke, Invoke.Below (evaluate (fuel - 1)) invoke
        → ∀ rest f arguments caller depth resume callers,
          Below (evaluate fuel f arguments caller depth
              >>= fun results => deliver invoke rest results resume callers)
            (enterCall invoke (rest + steps) f arguments caller depth resume callers) := by
  induction fuel with
  | zero => exact ⟨0, fun _ _ _ _ _ _ _ _ _ => .outOfFuel _⟩
  | succ fuel ih =>
      obtain ⟨calls, nested⟩ := ih
      obtain ⟨steps, alone⟩ :=
        runAlone_deliver_below
          (fun invoke below => nested invoke ((evaluate_below (Nat.sub_le ..)).trans below)) fuel
      refine ⟨steps, fun invoke below rest f arguments caller depth resume callers => ?_⟩
      simp only [evaluate, bind_assoc]
      refine .bind (.refl _) fun _ => .bind (.refl _) fun target => ?_
      have other :=
        Below.bind (callOther_below below target arguments caller depth) fun results =>
          deliver_below (.refl invoke) (Nat.le_add_right rest steps) results resume callers
      cases target with
      | closure ref =>
          rw [bind_assoc]
          exact .bind (.refl _) fun frame => alone invoke below rest frame resume callers
      | _ => exact other

/-- With enough fuel, a call on the stack settles what a call by recursion settles. -/
theorem evaluate_below_call (fuel : Nat)
    : ∃ enough, Invoke.Below (evaluate fuel) (call enough) := by
  induction fuel with
  | zero => exact ⟨0, fun _ _ _ _ => .outOfFuel _⟩
  | succ fuel ih =>
      obtain ⟨enough, below⟩ := ih
      obtain ⟨steps, delivered⟩ := evaluate_deliver_below (fuel + 1)
      refine ⟨max enough steps + 1, fun f arguments caller depth => ?_⟩
      have below := below.trans (call_below (Nat.le_max_left enough steps))
      have entered := delivered _ below 0 f arguments caller depth .forward []
      rw [Nat.zero_add] at entered
      rw [call_succ]
      refine .trans ?_
        (entered.trans (enterCall_below (.refl _) (Nat.le_max_right ..) _ _ _ _ _ _))
      simp only [deliver, unwind, bind_pure]
      exact .refl _

-----------------------------------------------------------------------------------------
-- Recursion settles what the stack settles
-----------------------------------------------------------------------------------------

/-- What the callers on a stack make of results, each by recursion. -/
def resumeAlone (invoke : Invoke) (fuel : Nat) (results : List Value)
    : Resume → List Layer → Vm (List Value)
  | _, [] => pure results
  | .store a c, caller :: rest => do
      let results ← runAlone invoke fuel (caller.frame.takeResults a c results)
      resumeAlone invoke fuel results caller.resume rest
  | .forward, caller :: rest => resumeAlone invoke fuel results caller.resume rest

theorem resumeAlone_below {first second : Invoke} (below : first.Below second)
    {fuel more : Nat} (le : fuel ≤ more) (results : List Value) (resume : Resume)
    (callers : List Layer)
    : Below (resumeAlone first fuel results resume callers)
        (resumeAlone second more results resume callers) := by
  induction callers generalizing results resume with
  | nil => cases resume <;> exact .refl _
  | cons caller rest ih =>
      cases resume with
      | store a c => exact .bind (runAlone_below below le _) fun results => ih results _
      | forward => exact ih results _

/-- Delivering results to a stack is recursion on its callers, if a run of a stack is; by
induction over the callers that pass the results on.
-/
theorem deliver_below_resumeAlone {invoke alone : Invoke} {fuel more : Nat}
    (run : ∀ top callers,
      Below (runFrames invoke fuel top callers)
        (runAlone alone more top.frame
          >>= fun results => resumeAlone alone more results top.resume callers))
    (results : List Value) (resume : Resume) (callers : List Layer)
    : Below (deliver invoke fuel results resume callers)
        (resumeAlone alone more results resume callers) := by
  induction callers generalizing resume with
  | nil => cases resume <;> exact .refl _
  | cons caller rest ih =>
      cases resume with
      | store a c =>
          exact run { caller with frame := caller.frame.takeResults a c results } rest
      | forward => exact ih caller.resume

/-- A run of a stack is recursion on its activations, with fuel for one more level of nesting
with every instruction; by induction over the instructions.
-/
theorem runFrames_below_runAlone {invoke : Invoke} {fuel : Nat}
    (below : invoke.Below (evaluate fuel)) (instructions : Nat) (top : Layer)
    (callers : List Layer)
    : Below (runFrames invoke instructions top callers)
        (runAlone (evaluate (fuel + instructions)) (fuel + instructions) top.frame
          >>= fun results =>
            resumeAlone (evaluate (fuel + instructions)) (fuel + instructions) results top.resume
              callers) := by
  induction instructions generalizing top callers with
  | zero => exact .outOfFuel _
  | succ instructions ih =>
      have later : fuel + instructions ≤ fuel + instructions + 1 := Nat.le_succ _
      have deeper := evaluate_below later
      have resumed := resumeAlone_below deeper later
      rw [runFrames_succ, ← Nat.add_assoc, runAlone, bind_assoc]
      refine .bind (step_below (below.trans (evaluate_below (by omega))) _) fun flow => ?_
      cases flow with
      | next frame =>
          refine (ih _ _).trans ?_
          exact .bind (runAlone_below deeper (Nat.le_refl _) _) fun results => resumed results _ _
      | finish results =>
          rw [pure_bind]
          exact (deliver_below_resumeAlone ih _ _ _).trans (resumed _ _ _)
      | call frame f arguments next =>
          rw [bind_assoc]
          have resumes (results : List Value)
              : Below
                  (resumeAlone (evaluate (fuel + instructions)) (fuel + instructions) results next
                    ({ top with frame } :: callers))
                  ((match next with
                      | .store a c =>
                          runAlone (evaluate (fuel + instructions + 1)) (fuel + instructions)
                            (frame.takeResults a c results)
                      | .forward => pure results)
                    >>= fun results =>
                      resumeAlone (evaluate (fuel + instructions + 1)) (fuel + instructions + 1)
                        results top.resume callers) := by
            cases next with
            | store a c =>
                exact .bind (runAlone_below deeper (Nat.le_refl _) _) fun results =>
                  resumed results _ _
            | forward =>
                rw [pure_bind]
                exact resumed results _ _
          simp only [enterCall, evaluate, bind_assoc]
          refine .bind (.refl _) fun _ => .bind (.refl _) fun target => ?_
          have other :=
            Below.bind
              (callOther_below (below.trans (evaluate_below (Nat.le_add_right fuel instructions)))
                target arguments (some frame.closure) (frame.depth + 1))
              fun results => (deliver_below_resumeAlone ih results next _).trans (resumes results)
          cases target with
          | closure ref =>
              rw [bind_assoc]
              exact .bind (.refl _) fun callee =>
                (ih ⟨callee, next⟩ _).trans (.bind (.refl _) resumes)
          | _ => exact other

/-- With enough fuel, a call by recursion settles what a call on the stack settles. -/
theorem call_below_evaluate (fuel : Nat)
    : ∃ enough, Invoke.Below (call fuel) (evaluate enough) := by
  induction fuel with
  | zero => exact ⟨0, fun _ _ _ _ => .outOfFuel _⟩
  | succ fuel ih =>
      obtain ⟨enough, below⟩ := ih
      refine ⟨enough + fuel + 1, fun f arguments caller depth => ?_⟩
      refine .bind (.refl _) fun _ => .bind (.refl _) fun target => ?_
      have other :=
        callOther_below (below.trans (evaluate_below (Nat.le_add_right enough fuel))) target
          arguments caller depth
      cases target with
      | closure ref =>
          refine .bind (.refl _) fun frame => ?_
          have run := runFrames_below_runAlone below fuel ⟨frame, .forward⟩ []
          simpa only [resumeAlone, bind_pure] using run
      | _ => exact other

/-- With enough fuel, an operation settles with an outcome. -/
def Settles {α : Type} (x : Nat → Vm α) (m : Machine)
    (outcome : EStateM.Result (Halt Fault) Machine α) : Prop :=
  Settled outcome ∧ ∃ fuel, x fuel m = outcome

theorem Settles.of_below {α : Type} {x y : Nat → Vm α} {m : Machine}
    {outcome : EStateM.Result (Halt Fault) Machine α} (settles : Settles x m outcome)
    (below : ∀ fuel, ∃ enough, Below (x fuel) (y enough))
    : Settles y m outcome := by
  obtain ⟨settled, fuel, rfl⟩ := settles
  obtain ⟨enough, below⟩ := below fuel
  exact ⟨settled, enough, below.eq_of_settled m settled⟩

/-- A call on the stack of activations and a call by plain recursion have the same outcome:
the same results or the same fault, in the same machine, which has all effects in it and the
count of instructions; and where the one never settles, neither does the other.
-/
theorem call_settles_iff_evaluate (f : Value) (arguments : List Value)
    (caller : Option ClosureRef) (depth : Nat) (m : Machine)
    (outcome : EStateM.Result (Halt Fault) Machine (List Value))
    : Settles (call · f arguments caller depth) m outcome
      ↔ Settles (evaluate · f arguments caller depth) m outcome := by
  constructor
  · intro settles
    refine settles.of_below fun fuel => ?_
    exact (call_below_evaluate fuel).imp fun _ below => below f arguments caller depth
  · intro settles
    refine settles.of_below fun fuel => ?_
    exact (evaluate_below_call fuel).imp fun _ below => below f arguments caller depth

end Vm
end HookMachine
