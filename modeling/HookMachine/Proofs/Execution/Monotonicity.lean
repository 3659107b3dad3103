import HookMachine.Execution.Call
import HookMachine.Proofs.Execution.Approximation

/-!
Whatever code does is monotone in the calls that it makes: calls that settle more make it
settle more, and change nothing that it settles already. Hence more fuel never changes the
outcome of a call.
-/

namespace HookMachine

open Run (Below)

/-- Calls that settle at least what others settle. -/
def Invoke.Below (first second : Invoke) : Prop :=
  ∀ f arguments caller depth,
    Run.Below (first f arguments caller depth) (second f arguments caller depth)

theorem Invoke.Below.refl (invoke : Invoke) : invoke.Below invoke :=
  fun _ _ _ _ => .refl _

theorem Invoke.Below.trans {first second third : Invoke} (lower : first.Below second)
    (upper : second.Below third)
    : first.Below third :=
  fun f arguments caller depth =>
    (lower f arguments caller depth).trans (upper f arguments caller depth)

variable {first second : Invoke}

-----------------------------------------------------------------------------------------
-- Fields and instructions
-----------------------------------------------------------------------------------------

namespace Vm

theorem indexChain_below (below : first.Below second) (key : Value) (depth limit : Nat)
    (object : Value)
    : Below (indexChain first key depth limit object)
        (indexChain second key depth limit object) := by
  induction limit generalizing object with
  | zero => exact .refl _
  | succ limit ih =>
      cases object with
      | table ref =>
          refine .bind (.refl _) fun t => ?_
          split
          · exact .refl _
          · refine .bind (.refl _) fun next => ?_
            split
            · exact .refl _
            · split
              · exact .bind (below ..) fun _ => .refl _
              · exact ih next
      | _ => exact .refl _

theorem index_below (below : first.Below second) (object key : Value) (depth : Nat)
    : Below (index first object key depth) (index second object key depth) :=
  indexChain_below below key depth maxChain object

theorem assignChain_below (below : first.Below second) (key value : Value)
    (depth limit : Nat) (object : Value)
    : Below (assignChain first key value depth limit object)
        (assignChain second key value depth limit object) := by
  induction limit generalizing object with
  | zero => exact .refl _
  | succ limit ih =>
      cases object with
      | table ref =>
          refine .bind (.refl _) fun _ => .bind (.refl _) fun t => ?_
          refine .bind (.refl _) fun next => ?_
          split
          · exact .refl _
          · split
            · exact .bind (below ..) fun _ => .refl _
            · exact ih next
      | _ => exact .refl _

theorem assign_below (below : first.Below second) (object key value : Value) (depth : Nat)
    : Below (assign first object key value depth) (assign second object key value depth) :=
  .bind (.refl _) fun _ => assignChain_below below key value depth maxChain object

theorem execute_below (below : first.Below second) (frame : Frame) (op : Opcode)
    (i : Instruction)
    : Below (execute first frame op i) (execute second frame op i) := by
  cases op with
  | getGlobal =>
      exact .bind (.refl _) fun _ => .bind (index_below below ..) fun _ => .refl _
  | setGlobal =>
      exact .bind (.refl _) fun _ => .bind (assign_below below ..) fun _ => .refl _
  | getTable =>
      exact .bind (.refl _) fun _ => .bind (index_below below ..) fun _ => .refl _
  | setTable =>
      refine .bind (.refl _) fun _ => .bind (.refl _) fun _ => ?_
      exact .bind (assign_below below ..) fun _ => .refl _
  | self =>
      exact .bind (.refl _) fun _ => .bind (index_below below ..) fun _ => .refl _
  | _ => exact .refl _

theorem step_below (below : first.Below second) (frame : Frame)
    : Below (step first frame) (step second frame) := by
  unfold step
  split
  · exact .refl _
  · refine .bind (.refl _) fun _ => ?_
    split
    · exact .refl _
    · exact .refl _
    · exact .refl _
    · exact .refl _
    · exact .bind (execute_below below ..) fun _ => .refl _

end Vm

-----------------------------------------------------------------------------------------
-- Requests and functions of scripts
-----------------------------------------------------------------------------------------

namespace Connection

variable {run other : Value → Vm (List Value)}

theorem fire_below (below : ∀ callback, Below (run callback) (other callback)) (index : Nat)
    : Below (fire run index) (fire other index) := by
  refine .bind (.refl _) fun m => ?_
  split
  · exact .refl _
  · exact .bind (.attempt (below _)) fun _ => .refl _

theorem fireAll_below (below : ∀ callback, Below (run callback) (other callback))
    (indices : List Nat)
    : Below (fireAll run indices) (fireAll other indices) := by
  induction indices with
  | nil => exact .refl _
  | cons index rest ih =>
      exact .bind (fire_below below index) fun _ => .bind ih fun _ => .refl _

theorem fireSignal_below (below : ∀ callback, Below (run callback) (other callback))
    (signal : String)
    : Below (fireSignal run signal) (fireSignal other signal) :=
  .bind (.refl _) fun _ => fireAll_below below _

end Connection

theorem serve_below (below : first.Below second) (request : Request)
    : Below (serve first request) (serve second request) := by
  have fromHost (f : Value) (arguments : List Value)
      : Below (Vm.callFromHost first f arguments) (Vm.callFromHost second f arguments) :=
    .enter (below ..)
  cases request with
  | call f arguments => exact .mapError _ (fromHost f arguments)
  | index object key => exact .mapError _ (.enter (Vm.index_below below object key 0))
  | assign object key value =>
      exact .mapError _ (.enter (Vm.assign_below below object key value 0))
  | readShared name =>
      exact .bind (.refl _) fun _ => .mapError _ (.enter (Vm.index_below below ..))
  | fire index arguments =>
      exact .mapError _ (Connection.fire_below (fromHost · arguments) index)
  | fireSignal signal arguments =>
      exact .mapError _ (Connection.fireSignal_below (fromHost · arguments) signal)
  | _ => exact .refl _

namespace Script

variable {nested other : Nested}

theorem run_below (below : ∀ f arguments, Below (nested f arguments) (other f arguments))
    (caller : Option ClosureRef) (f : ScriptFunction) (arguments : List Value)
    : Below (run nested caller f arguments) (run other caller f arguments) := by
  cases f with
  | fireSignal =>
      refine .bind (.refl _) fun signal => .bind ?_ fun _ => .refl _
      exact .mapError _ (Connection.fireSignal_below (below · _) signal)
  | _ => exact .refl _

theorem runMethod_below (below : ∀ f arguments, Below (nested f arguments) (other f arguments))
    (m : ConnectionMethod) (index : Nat) (owner : TableRef) (arguments : List Value)
    : Below (runMethod nested m index owner arguments)
        (runMethod other m index owner arguments) := by
  cases m with
  | fire => exact .bind (Connection.fire_below (below · _) index) fun _ => .refl _
  | _ => exact .refl _

end Script

-----------------------------------------------------------------------------------------
-- Calls
-----------------------------------------------------------------------------------------

namespace Vm

theorem runProgram_below (below : first.Below second) {nested other : Script.Nested}
    (nested_below : ∀ f arguments, Below (nested f arguments) (other f arguments))
    (program : HostProgram)
    : Below (runProgram first nested program) (runProgram second other program) := by
  induction program with
  | finish results => exact .refl _
  | fail fault => exact .refl _
  | call f arguments next ih => exact .bind (.attempt (nested_below f arguments)) ih
  | ask request next ih => exact .bind (.mapError _ (.attempt (serve_below below request))) ih
  | create name body bound next _ ih => exact .bind (.refl _) ih

theorem callNative_below (below : first.Below second) (ref : NativeRef)
    (arguments : List Value) (caller : Option ClosureRef) (depth : Nat)
    : Below (callNative first ref arguments caller depth)
        (callNative second ref arguments caller depth) := by
  refine .bind (.refl _) fun n => ?_
  split
  · refine .bind (.refl _) fun _ => ?_
    have body := Script.run_below (fun f arguments => below f arguments caller (depth + 1))
    split
    · exact .mapError _ (body ..)
    · exact .bind (.refl _) fun _ => .mapError _ (body ..)
  · refine .bind (.refl _) fun _ => ?_
    have body := Script.runMethod_below (fun f arguments => below f arguments caller (depth + 1))
    split
    · exact body ..
    · exact .bind (.refl _) fun _ => body ..
  · exact below ..
  · exact runProgram_below below (fun _ _ => below ..) _

theorem callOther_below (below : first.Below second) (target : Value) (arguments : List Value)
    (caller : Option ClosureRef) (depth : Nat)
    : Below (callOther first target arguments caller depth)
        (callOther second target arguments caller depth) := by
  cases target with
  | native ref => exact callNative_below below ref arguments caller depth
  | table ref =>
      refine .bind (.refl _) fun handler => ?_
      split
      · exact below ..
      · exact .bind (.refl _) fun _ => below ..
  | _ => exact .refl _

theorem advance_below (below : first.Below second) (top : Layer) (callers : List Layer)
    : Below (advance first top callers) (advance second top callers) := by
  refine .bind (step_below below top.frame) fun flow => ?_
  cases flow with
  | next frame => exact .refl _
  | finish results => exact .refl _
  | call frame f arguments resume =>
      refine .bind (.refl _) fun _ => .bind (.refl _) fun target => ?_
      split
      · exact .refl _
      · exact .bind (callOther_below below ..) fun _ => .refl _

theorem runFrames_below (below : first.Below second) {fuel more : Nat} (le : fuel ≤ more)
    (top : Layer) (callers : List Layer)
    : Below (runFrames first fuel top callers) (runFrames second more top callers) := by
  induction fuel generalizing more top callers with
  | zero => exact .outOfFuel _
  | succ fuel ih =>
      obtain ⟨more, rfl⟩ := Nat.exists_eq_add_of_le' (Nat.lt_of_lt_of_le fuel.succ_pos le)
      refine .bind (advance_below below top callers) fun outcome => ?_
      split
      · exact .refl _
      · exact ih (Nat.le_of_succ_le_succ le) _ _

/-- More fuel settles more calls, and changes none that settle already. -/
theorem call_below {fuel more : Nat} (le : fuel ≤ more)
    : Invoke.Below (call fuel) (call more) := by
  induction fuel generalizing more with
  | zero => exact fun _ _ _ _ => .outOfFuel _
  | succ fuel ih =>
      obtain ⟨more, rfl⟩ := Nat.exists_eq_add_of_le' (Nat.lt_of_lt_of_le fuel.succ_pos le)
      have below := ih (Nat.le_of_succ_le_succ le)
      intro f arguments caller depth
      refine .bind (.refl _) fun _ => .bind (.refl _) fun target => ?_
      split
      · exact .bind (.refl _) fun _ => runFrames_below below (Nat.le_of_succ_le_succ le) _ _
      · exact callOther_below below ..

end Vm
end HookMachine
