import HookMachine.Proofs.Bounds.Course
import HookMachine.Proofs.Bounds.Surface

/-!
Between the calls that an operation makes it executes no instruction, and it makes no call less
deep than it should: a judgement on plans, with a rule for each way to put plans together and a
lemma for each plan.
-/

namespace HookMachine

variable {α β : Type}

/-- What a machine becomes while code runs: instructions may have been counted. -/
structure Regime.Onward (regime : Regime) (m after : Machine) : Prop where
  governs : regime.Governs after
  steps : m.steps ≤ after.steps

namespace Regime

variable {regime : Regime} {m middle after : Machine}

theorem Idles.onward (idles : regime.Idles m after) : regime.Onward m after :=
  ⟨idles.governs, Nat.le_of_eq idles.steps.symm⟩

theorem Onward.refl (governs : regime.Governs m) : regime.Onward m m :=
  ⟨governs, Nat.le_refl _⟩

theorem Onward.trans (first : regime.Onward m middle) (second : regime.Onward middle after)
    : regime.Onward m after :=
  ⟨second.governs, Nat.le_trans first.steps second.steps⟩

end Regime

/-- Up to its first call, between its calls and after the last of them, a course executes no
instruction; its calls are no less deep than `floor`, its requests are among `asks`, and it
ends, with a result as `post` says.
-/
def Course.Steady (regime : Regime) (asks : Request → Prop) (floor : Nat) (post : α → Prop)
    : Course α → Machine → Prop
  | .ends outcome, m => regime.Idled m post outcome
  | .calls call now next, m =>
      regime.Idles m now ∧ floor ≤ call.depth
        ∧ ∀ results after, regime.Onward now after
          → (next results after).Steady regime asks floor post after
  | .asks request now next, m =>
      regime.Idles m now ∧ asks request
        ∧ ∀ reply after, regime.Onward now after
          → (next reply after).Steady regime asks floor post after

/-- A course that is steady after idling is steady from before it. -/
theorem Course.Steady.before {regime : Regime} {asks : Request → Prop} {floor : Nat}
    {post : α → Prop} {course : Course α} {m middle : Machine}
    (steady : course.Steady regime asks floor post middle) (idles : regime.Idles m middle)
    : course.Steady regime asks floor post m := by
  cases course with
  | ends outcome =>
      rcases outcome with ⟨a, after⟩ | ⟨_ | _, after⟩
      · exact ⟨idles.trans steady.1, steady.2⟩
      · exact idles.trans steady
      · exact steady
  | calls call now next => exact ⟨idles.trans steady.1, steady.2⟩
  | asks request now next => exact ⟨idles.trans steady.1, steady.2⟩

/-- The courses of a plan are steady. -/
structure Plan.Steady (regime : Regime) (asks : Request → Prop) (floor : Nat) (plan : Plan α)
    (post : α → Prop)
    : Prop where
  course : ∀ m, regime.Governs m → (plan m).Steady regime asks floor post m

/-- A program of the host makes no request but those among `asks`, and natives out of no
function of the host but an allowed one.
-/
inductive HostProgram.Within (allows : HostFunction → Prop) (asks : Request → Prop)
    : HostProgram → Prop
  | finish (results : List Value) : Within allows asks (.finish results)
  | fail (fault : Fault) : Within allows asks (.fail fault)
  | call {f arguments next} (rest : ∀ outcome, Within allows asks (next outcome))
    : Within allows asks (.call f arguments next)
  | ask {request next} (asked : asks request) (rest : ∀ reply, Within allows asks (next reply))
    : Within allows asks (.ask request next)
  | create {name body bound next} (allowed : allows body)
    (rest : ∀ reply, Within allows asks (next reply))
    : Within allows asks (.create name body bound next)

/-- Whatever calls it and with whatever arguments, a function of the host is within its bounds. -/
def HostFunction.Within (allows : HostFunction → Prop) (asks : Request → Prop)
    (f : HostFunction) : Prop :=
  ∀ caller arguments, (f caller arguments).Within allows asks

/-- Every program is within bounds that exclude nothing, by induction over it. -/
theorem HostProgram.within_any (p : HostProgram) : p.Within (fun _ => True) fun _ => True := by
  induction p with
  | finish results => exact .finish results
  | fail fault => exact .fail fault
  | call _ _ _ ih => exact .call ih
  | ask _ _ ih => exact .ask trivial ih
  | create _ _ _ _ _ ih => exact .create trivial ih

namespace Plan

variable {regime : Regime} {asks : Request → Prop} {floor : Nat} {post : α → Prop}

-----------------------------------------------------------------------------------------
-- Rules
-----------------------------------------------------------------------------------------

namespace Steady

theorem pure {a : α} (holds : post a) : (pure a : Plan α).Steady regime asks floor post :=
  ⟨fun _ governs => ⟨.refl governs, holds⟩⟩

theorem lift {x : Vm α} (yields : regime.Yields x post)
    : (liftM x : Plan α).Steady regime asks floor post := by
  refine ⟨fun m governs => ?_⟩
  exact yields.outcome m governs

theorem bind {plan : Plan α} {f : α → Plan β} {last : β → Prop}
    (first : plan.Steady regime asks floor post)
    (rest : ∀ a, post a → (f a).Steady regime asks floor last)
    : (plan >>= f).Steady regime asks floor last := by
  refine ⟨fun m governs => ?_⟩
  have steady := first.course m governs
  change ((plan m).bind f).Steady regime asks floor last m
  generalize plan m = course at steady
  induction course generalizing m with
  | ends outcome =>
      rcases outcome with ⟨a, after⟩ | ⟨_ | _, after⟩
      · exact ((rest a steady.2).course after steady.1.governs).before steady.1
      · exact steady
      · exact steady.elim
  | calls call now next ih =>
      obtain ⟨idles, deep, goes⟩ := steady
      exact ⟨idles, deep, fun results after onward =>
        ih results after after onward.governs (goes results after onward)⟩
  | asks request now next ih =>
      obtain ⟨idles, asked, goes⟩ := steady
      exact ⟨idles, asked, fun reply after onward =>
        ih reply after after onward.governs (goes reply after onward)⟩

/-- What comes second takes no notice of what the first results in. -/
theorem andThen {plan : Plan α} {f : α → Plan β} {last : β → Prop}
    (first : plan.Steady regime asks floor post)
    (rest : ∀ a, (f a).Steady regime asks floor last)
    : (plan >>= f).Steady regime asks floor last :=
  first.bind fun a _ => rest a

/-- A failure keeps what would follow it from being done. -/
theorem failThen (fault : Fault) (f : α → Plan β) {last : β → Prop}
    : ((liftM (Vm.fail fault : Vm α) : Plan α) >>= f).Steady regime asks floor last :=
  ⟨fun _ governs => .refl governs⟩

theorem tryCall {f : Value} {arguments : List Value} {caller : Option ClosureRef} {d : Nat}
    (deep : floor ≤ d)
    : (Plan.tryCall f arguments caller d).Steady regime asks floor fun _ => True :=
  ⟨fun _ governs => ⟨.refl governs, deep, fun _ _ onward => ⟨.refl onward.governs, trivial⟩⟩⟩

theorem call {f : Value} {arguments : List Value} {caller : Option ClosureRef} {d : Nat}
    (deep : floor ≤ d)
    : (Plan.call f arguments caller d).Steady regime asks floor fun _ => True := by
  refine (tryCall deep).andThen fun outcome => ?_
  cases outcome with
  | ok results => exact pure trivial
  | error fault => exact lift (.fail _)

theorem ask {request : Request} (asked : asks request)
    : (Plan.ask request).Steady regime asks floor fun _ => True :=
  ⟨fun _ governs => ⟨.refl governs, asked, fun _ _ onward => ⟨.refl onward.governs, trivial⟩⟩⟩

end Steady

-----------------------------------------------------------------------------------------
-- Fields, connections and functions of scripts
-----------------------------------------------------------------------------------------

variable {d : Nat}

theorem indexChain_steady (within : floor ≤ d + 1) (key : Value) (limit : Nat) (object : Value)
    : (indexChain key d limit object).Steady regime asks floor fun _ => True := by
  induction limit generalizing object with
  | zero => exact .lift (.fail _)
  | succ limit ih =>
      cases object with
      | table ref =>
          refine .andThen (.lift (Vm.table_idle ref)) fun t => ?_
          split
          · exact .pure trivial
          · refine .andThen (.lift (Vm.handler_idle t _)) fun next => ?_
            split
            · exact .pure trivial
            · split
              · exact .andThen (.call within) fun _ => .pure trivial
              · exact ih next
      | _ => exact .lift (.fail _)

theorem index_steady (within : floor ≤ d + 1) (object key : Value)
    : (index object key d).Steady regime asks floor fun _ => True :=
  indexChain_steady within key Vm.maxChain object

theorem assignChain_steady (within : floor ≤ d + 1) (key value : Value) (limit : Nat)
    (object : Value)
    : (assignChain key value d limit object).Steady regime asks floor fun _ => True := by
  induction limit generalizing object with
  | zero => exact .lift (.fail _)
  | succ limit ih =>
      cases object with
      | table ref =>
          refine .andThen (.lift (Vm.checkOwner_idle value)) fun _ => ?_
          refine .andThen (.lift (Vm.table_idle ref)) fun t => ?_
          refine .andThen (.lift (Vm.writeHandler_idle t key)) fun next => ?_
          split
          · split
            · exact .failThen _ _
            · exact .lift (Vm.updateTable_idle ref _)
          · split
            · exact .andThen (.call within) fun _ => .pure trivial
            · exact ih next
      | _ => exact .lift (.fail _)

theorem assign_steady (within : floor ≤ d + 1) (object key value : Value)
    : (assign object key value d).Steady regime asks floor fun _ => True :=
  .andThen (.lift (Vm.checkKey_idle key)) fun _ =>
    assignChain_steady within key value Vm.maxChain object

variable {caller : Option ClosureRef}

theorem fire_steady (deep : floor ≤ d) (arguments : List Value) (index : Nat)
    : (fire arguments caller d index).Steady regime asks floor fun _ => True := by
  refine .andThen (.lift .get) fun m => ?_
  split
  · exact .pure trivial
  · exact .andThen (.tryCall deep) fun _ => .pure trivial

theorem fireAll_steady (deep : floor ≤ d) (arguments : List Value) (indices : List Nat)
    : (fireAll arguments caller d indices).Steady regime asks floor fun _ => True := by
  induction indices with
  | nil => exact .pure trivial
  | cons index rest ih =>
      exact (fire_steady deep arguments index).andThen fun _ => ih.andThen fun _ =>
        .pure trivial

theorem fireSignal_steady (deep : floor ≤ d) (arguments : List Value) (signal : String)
    : (fireSignal arguments caller d signal).Steady regime asks floor fun _ => True :=
  .andThen (.lift .get) fun _ => fireAll_steady deep arguments _

theorem script_steady (deep : floor ≤ d) (f : ScriptFunction) (arguments : List Value)
    : (script caller d f arguments).Steady regime asks floor fun _ => True := by
  cases f with
  | fireSignal =>
      refine .andThen (.lift (Script.string_idle _ _ _).toVm) fun signal => ?_
      exact (fireSignal_steady deep _ signal).andThen fun _ => .pure trivial
  | _ => exact .lift (Script.run_idle noCall caller (by decide) arguments).toVm

theorem method_steady (deep : floor ≤ d) (m : ConnectionMethod) (index : Nat)
    (owner : TableRef) (arguments : List Value)
    : (method caller d m index owner arguments).Steady regime asks floor fun _ => True := by
  cases m with
  | fire => exact (fire_steady deep _ index).andThen fun _ => .pure trivial
  | _ => exact .lift (Script.runMethod_idle noCall (by decide) index owner arguments)

-----------------------------------------------------------------------------------------
-- Calls of what is no closure
-----------------------------------------------------------------------------------------

theorem program_steady {body : HostProgram} (within : body.Within regime.allows asks)
    (deep : floor ≤ d)
    : (program caller d body).Steady regime asks floor fun _ => True := by
  induction within with
  | finish results => exact .pure trivial
  | fail fault => exact .lift (.fail _)
  | call rest ih => exact .andThen (.tryCall deep) ih
  | ask asked rest ih => exact .andThen (.ask asked) ih
  | create allowed rest ih =>
      refine .andThen (.lift (.mapError _ (.attempt (.lift (Vm.createNative_idle ?_))))) ih
      rintro f ⟨⟩
      exact allowed

theorem body_steady (within : floor ≤ d + 1) (arguments : List Value) {b : NativeBody}
    (programs : ∀ f, b = .host f → HostFunction.Within regime.allows asks f)
    : (body arguments caller d b).Steady regime asks floor fun _ => True := by
  cases b with
  | script f =>
      refine .andThen (.lift .get) fun m => ?_
      split
      · exact script_steady within f arguments
      · exact .failThen _ _
  | method m index owner =>
      refine .andThen (.lift .get) fun m => ?_
      split
      · exact method_steady within _ index owner arguments
      · exact .failThen _ _
  | wrapper inner => exact .call within
  | host f => exact program_steady (programs f rfl caller arguments) within

theorem callNative_steady
    (programs : ∀ f, regime.allows f → HostFunction.Within regime.allows asks f)
    (within : floor ≤ d + 1) (ref : NativeRef) (arguments : List Value)
    : (callNative ref arguments caller d).Steady regime asks floor fun _ => True :=
  .bind (.lift (Vm.native_yields ref)) fun _ abides =>
    body_steady within arguments fun f same => programs f (abides f same)

theorem callOther_steady (within : floor ≤ d + 1) {target : Value} {arguments : List Value}
    (natives : ∀ ref, target = .native ref
      → (callNative ref arguments caller d).Steady regime asks floor fun _ => True)
    : (callOther target arguments caller d).Steady regime asks floor fun _ => True := by
  cases target with
  | native ref => exact natives ref rfl
  | table ref =>
      refine .andThen (.lift (Vm.metamethod_idle _ _)) fun handler => ?_
      split
      · exact .call within
      · exact .failThen _ _
  | _ => exact .lift (.fail _)

-----------------------------------------------------------------------------------------
-- Instructions
-----------------------------------------------------------------------------------------

theorem execute_steady (frame : Frame) (op : Opcode) (i : Instruction)
    : (execute frame op i).Steady regime asks (frame.depth + 1)
        fun after => after.depth = frame.depth := by
  have within : frame.depth + 1 ≤ frame.depth + 1 := Nat.le_refl _
  cases op with
  | getGlobal =>
      refine .andThen (.lift (Vm.constant_idle frame _)) fun key => ?_
      exact (index_steady within _ key).andThen fun _ => .pure (by simp)
  | setGlobal =>
      refine .andThen (.lift (Vm.constant_idle frame _)) fun key => ?_
      exact (assign_steady within _ key _).andThen fun _ => .pure rfl
  | getTable =>
      refine .andThen (.lift (Vm.operand_idle frame _)) fun key => ?_
      exact (index_steady within _ key).andThen fun _ => .pure (by simp)
  | setTable =>
      refine .andThen (.lift (Vm.operand_idle frame _)) fun key => ?_
      refine .andThen (.lift (Vm.operand_idle frame _)) fun value => ?_
      exact (assign_steady within _ key value).andThen fun _ => .pure rfl
  | self =>
      refine .andThen (.lift (Vm.operand_idle frame _)) fun key => ?_
      exact (index_steady within _ key).andThen fun _ => .pure (by simp)
  | _ => exact .lift (Vm.execute_yields frame (by decide) i)

end Plan
end HookMachine
