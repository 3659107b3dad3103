import HookMachine.Proofs.Deeds.FollowingSurface

/-!
Relations between machines from point to point. What is done at a point of a run, up to where anything
is called or asked for, leads where a relation goes, unless it copies a closure or reaches captured
variables.
-/

namespace HookMachine

open Machine (Lenient)
open Run (Looks)

variable {α β : Type} {R : Machine → Machine → Prop} [Lenient R] {m first : Machine}

-----------------------------------------------------------------------------------------
-- Where courses come to first
-----------------------------------------------------------------------------------------

/-- Where a plan first calls or asks for anything a relation has led. -/
structure Plan.Follows (R : Machine → Machine → Prop) (plan : Plan α) : Prop where
  head : ∀ m : Machine, R m (plan m).head

omit [Lenient R] in
theorem Plan.Follows.lift {x : Vm α} (follows : Run.Follows R x) : Follows R (liftM x : Plan α) :=
  ⟨follows.outcome⟩

namespace Plan.Follows

variable {plan : Plan α}

theorem quiet (quiet : plan.Quiet False) : plan.Follows R :=
  ⟨fun m => Lenient.of_near (quiet.course m).head⟩

theorem andThen {f : α → Plan β} (first : plan.Follows R) (rest : ∀ a, (f a).Follows R)
    : (plan >>= f).Follows R := by
  refine ⟨fun m => ?_⟩
  have before := first.head m
  change R m ((plan m).bind f).head
  generalize plan m = course at before ⊢
  rcases course with ⟨⟨a, after⟩ | ⟨halt, after⟩⟩ | _ | _
  · exact Lenient.trans before ((rest a).head after)
  · exact before
  · exact before
  · exact before

/-- A failure keeps what would follow it from being done. -/
theorem failThen (fault : Fault) (f : α → Plan β)
    : ((liftM (Vm.fail fault : Vm α) : Plan α) >>= f).Follows R :=
  ⟨Lenient.refl⟩

end Plan.Follows

/-- What looks at the machine first goes on in the same machine. -/
theorem Course.follow_look {x : Vm α} {f : α → Plan β} (looks : Looks x)
    (rest : ∀ a, x m = .ok a m → R m (f a m).head)
    : R m (((liftM x : Plan α) >>= f) m).head := by
  change R m (Course.bind (.ends (x m)) f).head
  rcases looks.outcome m with ⟨a, ran⟩ | ⟨fault, ran⟩ <;> rw [ran]
  · exact rest a ran
  · exact Lenient.refl m

/-- Natives that copy closures. -/
def NativeBody.copies : NativeBody → Bool
  | .script f => f.copies
  | .method .. | .wrapper _ | .host _ => false

/-- Natives that change connections. -/
def NativeBody.connects : NativeBody → Bool
  | .script .registerConnection => true
  | .method .fire _ _ => false
  | .method .. => true
  | _ => false

namespace Plan

variable {caller : Option ClosureRef} {d : Nat} {arguments : List Value}

omit [Lenient R] in
/-- What becomes of results changes nothing. -/
theorem follow_return {plan : Plan α} (led : R m (plan m).head) (f : α → β)
    : R m ((plan >>= fun a => pure (f a)) m).head := by
  change R m ((plan m).bind fun a => (pure (f a) : Plan β)).head
  rw [Course.head_bind_pure]
  exact led

theorem head_return {plan other : Plan α} (same : plan m = other m) (f : α → β)
    : ((plan >>= fun a => pure (f a)) m).head = (other m).head :=
  (Course.head_bind_pure (plan m) f).trans (congrArg Course.head same)

theorem assignChain_follows (key value : Value) (limit : Nat) (object : Value)
    : (assignChain key value d limit object).Follows R := by
  induction limit generalizing object with
  | zero => exact .lift (.fail _)
  | succ limit ih =>
      cases object with
      | table ref =>
          refine .andThen (.lift (.looks (Vm.checkOwner_looks value))) fun _ => ?_
          refine .andThen (.lift (.looks (Vm.table_looks ref))) fun t => ?_
          refine .andThen (.lift (.looks (Vm.writeHandler_looks t key))) fun next => ?_
          split
          · split
            · exact .failThen _ _
            · exact .lift (Vm.updateTable_follows _ _)
          · split
            · exact .andThen (.quiet (.call ..)) fun _ => .lift (.pure _)
            · exact ih next
      | _ => exact .lift (.fail _)

theorem assign_follows (object key value : Value) : (assign object key value d).Follows R :=
  .andThen (.lift (.looks (Vm.checkKey_looks key))) fun _ => assignChain_follows key value _ object

theorem execute_follows (frame : Frame) {op : Opcode} (unclosed : op ≠ .closure)
    (unset : op ≠ .setUpval) (i : Instruction)
    : (execute frame op i).Follows R := by
  have done (frame : Frame) : (pure frame : Plan Frame).Follows R := .lift (.pure frame)
  have read (object key : Value) : (index object key frame.depth).Follows R :=
    .quiet (index_quiet object key)
  have operand (field : Nat) : (liftM (Vm.operand frame field) : Plan Value).Follows R :=
    .lift (.looks (Vm.operand_looks frame _))
  cases op with
  | getGlobal =>
      exact .andThen (.lift (.looks (Vm.constant_looks frame _))) fun _ =>
        (read _ _).andThen fun _ => done _
  | setGlobal =>
      exact .andThen (.lift (.looks (Vm.constant_looks frame _))) fun _ =>
        (assign_follows _ _ _).andThen fun _ => done _
  | getTable => exact (operand _).andThen fun _ => (read _ _).andThen fun _ => done _
  | setTable =>
      exact (operand _).andThen fun _ => (operand _).andThen fun _ =>
        (assign_follows _ _ _).andThen fun _ => done _
  | self => exact (operand _).andThen fun _ => (read _ _).andThen fun _ => done _
  | _ => exact .lift (Vm.execute_follows frame (by decide) unclosed unset i)

-----------------------------------------------------------------------------------------
-- Natives
-----------------------------------------------------------------------------------------

section

variable (made : ∀ prototype environment, Run.Follows R (Vm.instantiate prototype environment))

include made

/-- A function of scripts that copies no closure. -/
theorem script_follows {f : ScriptFunction} (uncopied : f.copies = false)
    (wires : f = .registerConnection → Machine.Wires R)
    : (script caller d f arguments).Follows R := by
  have run (quiet : f ≠ .fireSignal)
      : (liftM (Script.run noCall caller f arguments).toVm : Plan (List Value)).Follows R :=
    .lift (Script.run_follows made noCall caller arguments uncopied wires quiet).toVm
  cases f with
  | fireSignal =>
      have named : (liftM (Script.string arguments 0 "signal name").toVm : Plan String).Follows R :=
        .lift (Script.string_follows arguments 0 _).toVm
      refine named.andThen fun signal => .quiet ?_
      exact (fireSignal_quiet _ signal).andThen fun _ => .pure _
  | _ => exact run (by decide)

theorem body_follows {body : NativeBody} (uncopied : body.copies = false)
    (wires : body.connects = true → Machine.Wires R)
    : (Plan.body arguments caller d body).Follows R := by
  cases body with
  | script f =>
      refine .andThen (.lift .get) fun now => ?_
      split
      · refine script_follows made uncopied fun registers => wires ?_
        rw [registers]
        rfl
      · exact .failThen _ _
  | method method index owner =>
      refine .andThen (.lift .get) fun now => ?_
      split
      · cases method with
        | fire => exact .quiet ((fire_quiet _ index).andThen fun _ => .pure _)
        | enable | disable =>
            have set (on : Bool) := Script.setEnabled_follows (wires rfl) index on
            exact .lift ((set _).andThen fun _ => .pure _)
        | disconnect =>
            exact .lift ((Script.disconnect_follows (wires rfl) index).andThen fun _ => .pure _)
      · exact .failThen _ _
  | wrapper inner => exact .quiet (.call ..)
  | host f => exact ⟨fun m => Lenient.of_near ((program_quiet trivial (f caller arguments)).course m).head⟩

end

-----------------------------------------------------------------------------------------
-- Calls
-----------------------------------------------------------------------------------------

theorem callOther_of_native {ref : NativeRef} {n : Native}
    (found : m.heap.natives.get ref.handle = .ok n)
    : callOther (.native ref) arguments caller d m = body arguments caller d n.body m :=
  bind_of_ok (Vm.native_of_get found) _

/-- A value that is no closure is called as the native that it is, if it is one. -/
theorem callOther_follows {target : Value}
    (natives : ∀ ref n, target = .native ref → m.heap.natives.get ref.handle = .ok n
      → R m (body arguments caller d n.body m).head)
    : R m (callOther target arguments caller d m).head := by
  cases target with
  | native ref =>
      refine Course.follow_look (Vm.native_looks ref) fun n found => ?_
      exact natives ref n rfl (Vm.get_of_native found)
  | table ref =>
      refine Course.follow_look (Vm.metamethod_looks _ _) fun handler _ => ?_
      split
      · have calls : (Plan.call handler (.table ref :: arguments) caller (d + 1)).Quiet False :=
          .call ..
        exact Lenient.of_near (calls.course m).head
      · exact Lenient.refl m
  | _ => exact Lenient.refl m

/-- A call leads where the native does that it comes down to, if it comes down to one. -/
theorem start_follows {call : Invocation}
    (natives : ∀ n arguments, Point.Passes ⟨.called call, m⟩ n arguments
      → R m (body arguments call.caller call.depth n.body m).head)
    : R m (start call m).head := by
  refine Course.follow_look (Vm.checkDepth_looks _) fun _ within => ?_
  refine Course.follow_look (Vm.resolve_looks _) fun target resolved => ?_
  cases target with
  | closure ref => exact Course.follow_look (Vm.openFrame_looks ..) fun _ _ => Lenient.refl m
  | _ =>
      refine follow_return (callOther_follows fun ref n same found => natives n _ ?_) _
      exact ⟨Vm.le_of_checkDepth within, ⟨ref, m, same ▸ resolved, found⟩, rfl⟩

/-- So does an instruction, unless it captures or assigns variables. -/
theorem advance_follows (top : Layer) (callers : List Layer) {i : Instruction}
    (reaching : ∀ frame op, i.operation? = some op → op = .closure ∨ op = .setUpval
      → (execute frame op i).Follows R)
    (natives : ∀ n arguments, Point.Passes ⟨.executes top.frame i, m⟩ n arguments
      → R m (body arguments (some top.frame.closure) (top.frame.depth + 1) n.body m).head)
    : R m (advance top callers i m).head := by
  have as := advance_as top callers i
  generalize advance top callers i = plan at as ⊢
  cases as with
  | calls resume calls =>
      refine Course.follow_look (Vm.checkDepth_looks _) fun _ within => ?_
      refine Course.follow_look (Vm.resolve_looks _) fun target resolved => ?_
      cases target with
      | closure ref => exact Course.follow_look (Vm.openFrame_looks ..) fun _ _ => Lenient.refl m
      | _ =>
          refine follow_return (callOther_follows fun ref n same found => natives n _ ?_) _
          exact ⟨calls, Vm.le_of_checkDepth within, ⟨ref, m, same ▸ resolved, found⟩, rfl⟩
  | executes op operation =>
      have follows : (execute (past top).frame op i).Follows R := by
        by_cases reaches : op = .closure ∨ op = .setUpval
        · exact reaching _ op operation reaches
        · rw [not_or] at reaches
          exact execute_follows _ reaches.1 reaches.2 i
      exact follow_return (follows.head m) _
  | returns results => exact Lenient.refl m
  | fails fault => exact Lenient.refl m

end Plan

-----------------------------------------------------------------------------------------
-- Requests and points
-----------------------------------------------------------------------------------------

/-- Where a request comes to first that neither collects nor copies a closure. -/
theorem Request.errand_follows
    (made : ∀ prototype environment, Run.Follows R (Vm.instantiate prototype environment))
    {request : Request} (uncollected : request ≠ .collect) (uncopied : request.copies = false)
    (wires : request.connects = true → Machine.Wires R) (m : Machine)
    : R m (request.errand m).head := by
  have done {α : Type} (a : α) (after : Machine) : (Errand.ends (.ok a after)).Quiet after :=
    .refl after
  cases aside : request.enters with
  | false =>
      rw [errand_aside aside (fun _ _ _ _ => pure []) m]
      exact (serve_follows made _ aside uncollected uncopied wires).outcome m
  | true =>
      cases request with
      | call | index | assign => exact Lenient.refl m
      | readShared name =>
          have found : R m (Environment.find .runtime m).last :=
            (Environment.find_follows .runtime).outcome m
          unfold errand
          dsimp only
          generalize Environment.find .runtime m = outcome at found ⊢
          cases outcome <;> exact found
      | fire index arguments =>
          have quiet : ((Request.fire index arguments).errand m).Quiet m :=
            Errand.fire_quiet arguments index done
          exact Lenient.of_near quiet.head
      | fireSignal signal arguments =>
          have quiet : ((Request.fireSignal signal arguments).errand m).Quiet m :=
            Errand.fireAll_quiet arguments _ done
          exact Lenient.of_near quiet.head
      | _ => simp [enters] at aside

end HookMachine
