import HookMachine.Execution.Call
import HookMachine.Proofs.Soundness.Instructions
import HookMachine.Proofs.Soundness.Scripts

/-!
Calls by the rules. No call and no request of a native blames a handle or leaves anything
invalid behind; in particular a stack of valid activations stays one for as long as it runs.
-/

namespace HookMachine

open Rules (Tracks Leads)

variable {rules : Rules} {own mine : List Guard} {m after : Machine} {invoke : Invoke}

-----------------------------------------------------------------------------------------
-- Requests
-----------------------------------------------------------------------------------------

/-- Giving back the slot of one guard leaves those with other slots. -/
theorem subperm_of_mem {guard : Guard} (member : guard ∈ mine)
    : (guard :: mine.filter fun other => other.slot ≠ guard.slot).Subperm mine := by
  classical
  have others : (mine.filter fun other => other.slot ≠ guard.slot).Sublist (mine.erase guard) := by
    have erased := (List.filter_sublist (p := fun other => other.slot ≠ guard.slot)
      (l := mine)).erase guard
    rwa [List.erase_of_not_mem (by simp)] at erased
  exact ((List.subperm_cons guard).mpr others.subperm).trans
    (List.perm_cons_erase member).symm.subperm

namespace Rules

/-- An answer that is valid, to a request that assembles nothing. -/
theorem Tracks.answer {request : Request} {x : Action request.Answer}
    {left : request.Answer → List Guard} {lost : List Guard}
    {good : request.Answer → Machine → Prop} (tracked : rules.Tracks x m left lost good)
    (plain : ∀ after answer, rules.Assembled after request answer)
    (values : ∀ answer after, good answer after
      → ∀ value ∈ request.handedOut answer, rules.Valid after value)
    : rules.Tracks x m left lost fun answer after => rules.Answered after request answer :=
  tracked.mono fun answer after _ holds => ⟨values answer after holds, plain after answer⟩

theorem answered_nothing {request : Request} {answer : request.Answer}
    (plain : rules.Assembled m request answer) (nothing : request.handedOut answer = [])
    : rules.Answered m request answer :=
  ⟨by simp [nothing], plain⟩

/-- An answer that hands out nothing. -/
theorem Tracks.silent {request : Request} {x : Action request.Answer}
    {left : request.Answer → List Guard} {lost : List Guard}
    {good : request.Answer → Machine → Prop} (tracked : rules.Tracks x m left lost good)
    (plain : ∀ after answer, rules.Assembled after request answer)
    (nothing : ∀ answer, request.handedOut answer = [])
    : rules.Tracks x m left lost fun answer after => rules.Answered after request answer :=
  tracked.mono fun answer after _ _ => answered_nothing (plain after answer) (nothing answer)

end Rules

namespace Vm

-----------------------------------------------------------------------------------------
-- Entries from the host
-----------------------------------------------------------------------------------------

theorem callFromHost_leads (conducts : rules.Conducts invoke) (sound : rules.Sound own m)
    {f : Value} {arguments : List Value} (valid : rules.Valid m f)
    (arguments_valid : ∀ value ∈ arguments, rules.Valid m value)
    : rules.Leads own (callFromHost invoke f arguments) m
        fun results after => ∀ value ∈ results, rules.Valid after value := by
  have entered (inside : rules.Sound own m.enter) :=
    conducts 0 inside (Nat.succ_pos _) valid arguments_valid Rules.validCaller_none
  exact Rules.Leads.enter sound entered fun _ _ valid => valid

theorem callFromHost_runs (conducts : rules.Conducts invoke) {arguments : List Value}
    (valid : ∀ value ∈ arguments, rules.Valid m value)
    : rules.Runs (callFromHost invoke · arguments) m :=
  fun _ _ _ sound later _ callback => callFromHost_leads conducts sound callback (later.all valid)

theorem enter_index_leads (conducts : rules.Conducts invoke) (sound : rules.Sound own m)
    {object key : Value} (valid : rules.Valid m object) (key_valid : rules.Valid m key)
    : rules.Leads own (enter (index invoke object key 0)) m
        fun value after => rules.Valid after value := by
  have entered (inside : rules.Sound own m.enter) :=
    index_leads conducts inside (Nat.succ_pos _) 0 valid key_valid
  exact Rules.Leads.enter sound entered fun _ _ valid => valid

end Vm

/-- The answer to a permitted request hands out valid values, and its failure does not blame a
handle.
-/
theorem serve_tracks (conducts : rules.Conducts invoke) (sound : rules.Sound (mine ++ own) m)
    {request : Request} (active : request = .collect → 0 < m.activeCalls)
    (permits : rules.Permits m mine request)
    : rules.Tracks (serve invoke request) m (fun answer => request.owned answer mine ++ own)
        (mine ++ own) fun answer after => rules.Answered after request answer := by
  obtain ⟨values, prototypes, redirect, frees⟩ := permits
  cases request with
  | newTable =>
      refine (Vm.newTable_leads sound).lift.answer (fun _ _ => trivial) fun ref after made => ?_
      simpa [Request.handedOut] using made.1
  | assemble p =>
      refine (Vm.addPrototype_leads sound p).lift.mono fun ref after _ valid => ⟨?_, valid⟩
      simp [Request.handedOut]
  | instantiate prototype environment =>
      have made := Vm.instantiate_leads sound environment (prototypes prototype (.head _))
        fun table same => values _ (by simp [Request.values, same])
      refine made.lift.answer (fun _ _ => trivial) fun ref after valid => ?_
      simpa [Request.handedOut] using valid
  | load owner prototype =>
      have loaded := Environment.load_leads sound owner values (prototypes prototype (.head _))
      refine loaded.answer (fun _ _ => trivial) fun ref after valid => ?_
      simpa [Request.handedOut] using valid
  | contents ref =>
      refine (Vm.table_leads sound (values _ (.head _))).lift.answer (fun _ _ => trivial) ?_
      rintro t _ ⟨rfl, found⟩
      exact sound.references found
  | rawGet ref key =>
      refine (Vm.rawGet_leads sound key (values _ (.head _))).lift.answer (fun _ _ => trivial) ?_
      rintro value _ ⟨rfl, valid⟩
      simpa [Request.handedOut] using valid
  | rawSet ref key value =>
      have write := Vm.rawSet_leads sound (values _ (.head _)) (values key (by simp [Request.values]))
        (values value (by simp [Request.values]))
      exact write.lift.silent (fun _ _ => trivial) fun _ => rfl
  | metatable value =>
      refine (Vm.metatable_leads sound (values _ (.head _))).lift.answer (fun _ _ => trivial) ?_
      rintro mt _ ⟨rfl, valid⟩
      simpa [Request.handedOut] using valid
  | setMetatable ref mt =>
      have attach := Vm.setMetatable_leads sound mt (values _ (.head _))
        fun table same => values _ (by simp [Request.values, same])
      exact attach.lift.silent (fun _ _ => trivial) fun _ => rfl
  | isReadOnly ref =>
      refine (Vm.table_leads sound (values _ (.head _))).lift.bind fun t after passed _ => ?_
      exact .pure passed.sound (Rules.answered_nothing trivial rfl)
  | setReadOnly ref on =>
      have changed := Vm.setReadOnly_leads sound on (values _ (.head _))
      exact changed.lift.silent (fun _ _ => trivial) fun _ => rfl
  | closureEnvironment ref =>
      refine (Vm.closure_leads sound (values _ (.head _))).lift.bind fun c after _ read => ?_
      obtain ⟨rfl, found⟩ := read
      have environment := (sound.closures found).environment
      exact .pure sound ⟨by simpa [Request.handedOut] using environment, trivial⟩
  | upvalueCount ref =>
      refine (Vm.closure_leads sound (values _ (.head _))).lift.bind fun c after passed _ => ?_
      exact .pure passed.sound (Rules.answered_nothing trivial rfl)
  | functionName f =>
      have named := Vm.functionName_leads sound (values _ (.head _))
      exact named.lift.silent (fun _ _ => trivial) fun _ => rfl
  | clone f =>
      have copied := Vm.clone_leads sound (values _ (.head _))
      refine copied.lift.answer (fun _ _ => trivial) fun copy after valid value member => ?_
      exact valid value (Option.mem_toList.mp member)
  | redirect ref target =>
      have sent := Vm.setRedirect_leads sound (redirect ref target rfl) target
        (values _ (.head _)) fun value same => values value (by simp [Request.values, same])
      exact sent.lift.silent (fun _ _ => trivial) fun _ => rfl
  | checkOwner value =>
      have checked := Vm.checkOwner_leads sound (values _ (.head _))
      exact checked.lift.silent (fun _ _ => trivial) fun _ => rfl
  | stats | guardCount | environmentCount | hookCount | connectionCount | contextCount | isAlive
  | isHooked | isOwned | connectionsOf | connection =>
      exact .get (.pure sound (Rules.answered_nothing trivial rfl))
  | objects tables =>
      exact .get (.pure sound ⟨fun _ => valid_of_mem_objects, trivial⟩)
  | collect =>
      have busy : m.collect = (none, m) := if_pos (active rfl)
      have ran : (modifyGet Machine.collect : Action (Option Nat)) m = .ok none m := by
        change EStateM.Result.ok m.collect.1 m.collect.2 = _
        rw [busy]
      exact .ok ran (.refl sound) (Rules.answered_nothing trivial rfl)
  | call f arguments =>
      have ran := Vm.callFromHost_leads conducts sound (values f (.head _))
        fun value member => values value (.tail _ member)
      exact ran.lift.answer (fun _ _ => trivial) fun _ _ valid => valid
  | index object key =>
      have read := Vm.enter_index_leads conducts sound (values object (.head _))
        (values key (.tail _ (.head _)))
      refine read.lift.answer (fun _ _ => trivial) fun value after valid => ?_
      simpa [Request.handedOut] using valid
  | assign object key value =>
      have entered (inside : rules.Sound (mine ++ own) m.enter) :=
        Vm.assign_leads conducts inside (Nat.succ_pos _) 0 (values object (by simp [Request.values]))
          (values key (by simp [Request.values])) (values value (by simp [Request.values]))
      have wrote : rules.Leads _ (Vm.enter (Vm.assign invoke object key value 0)) m
          fun _ _ => True :=
        Rules.Leads.enter sound entered fun _ _ done => done
      exact wrote.lift.silent (fun _ _ => trivial) fun _ => rfl
  | retain value =>
      exact (Vm.retain_tracks sound (values _ (.head _))).lift.silent (fun _ _ => trivial) fun _ => rfl
  | release slot =>
      obtain ⟨guard, member, rfl⟩ := List.mem_map.mp (frees slot rfl)
      have within := (List.subperm_append_right own).mpr (subperm_of_mem member)
      exact (Vm.release_tracks sound within).lift.silent (fun _ _ => trivial) fun _ => rfl
  | resolve slot =>
      refine .get (.pure sound ⟨fun value member => ?_, trivial⟩)
      have found := Option.mem_toList.mp member
      rcases held : m.heap.retained.get slot with miss | other
      · simp [held, Except.toOption] at found
      · simp only [held, Except.toOption, Option.some.injEq] at found
        exact sound.retained (found ▸ held)
  | retained =>
      exact .get (.pure sound ⟨fun _ => sound.valid_of_mem_retained, trivial⟩)
  | hold value =>
      refine (Vm.hold_tracks sound (values _ (.head _))).lift.answer (fun _ _ => trivial) ?_
      rintro guard after ⟨same, valid⟩
      simpa [Request.handedOut, same] using valid
  | letGo gone =>
      obtain ⟨guard, member, same⟩ := List.mem_map.mp (frees gone.slot rfl)
      have within := (List.subperm_append_right own).mpr (subperm_of_mem member)
      have gave : m.letGo guard = m.letGo gone := by simp only [Machine.letGo, same]
      have left := (sound.forget within).letGo
      rw [gave, same] at left
      exact .ok rfl left (Rules.answered_nothing trivial rfl)
  | environment owner =>
      refine (Environment.find_leads sound owner values).answer (fun _ _ => trivial) fun ref after valid => ?_
      simpa [Request.handedOut] using valid
  | readShared name =>
      refine (Environment.find_leads sound .runtime (by simp)).bind fun ref after found valid => ?_
      have read := Vm.enter_index_leads conducts found.sound valid (Rules.valid_string name)
      refine read.lift.answer (fun _ _ => trivial) fun value after valid => ?_
      simpa [Request.handedOut] using valid
  | hook target replacement =>
      have installed := Hook.install_leads sound (values _ (.head _)) (values _ (.tail _ (.head _)))
      refine installed.answer (fun _ _ => trivial) fun copy after valid => ?_
      simpa [Request.handedOut] using valid
  | unhook target =>
      exact (Hook.restore_leads sound target).silent (fun _ _ => trivial) fun _ => rfl
  | hookMetamethod object name replacement =>
      have installed :=
        Hook.installMetamethod_leads sound (values _ (.head _)) name (values _ (.tail _ (.head _)))
      refine installed.answer (fun _ _ => trivial) fun former after valid => ?_
      simpa [Request.handedOut] using valid
  | unhookMetamethod object name =>
      have restored := Hook.restoreMetamethod_leads sound (values _ (.head _)) name
      exact restored.silent (fun _ _ => trivial) fun _ => rfl
  | isRuntimeFunction f =>
      have seen := Reflection.isRuntimeFunction_leads sound f
      exact seen.silent (fun _ _ => trivial) fun _ => rfl
  | constant f position =>
      have seen := Reflection.constant_leads sound (values _ (.head _)) position
      refine seen.answer (fun _ _ => trivial) fun value after valid held member => ?_
      exact valid held (Option.mem_toList.mp member)
  | setConstant f position value =>
      have changed := Reflection.setConstant_leads sound (values _ (.head _)) position
        (values _ (.tail _ (.head _)))
      exact changed.silent (fun _ _ => trivial) fun _ => rfl
  | constants f =>
      have seen := Reflection.constants_leads sound (values _ (.head _))
      refine seen.answer (fun _ _ => trivial) fun answer after valid => ?_
      cases answer with
      | none => simp [Request.handedOut]
      | some constants => exact valid constants rfl
  | info f =>
      exact (Reflection.info_leads sound (values _ (.head _))).silent (fun _ _ => trivial) fun _ => rfl
  | nested f position activate =>
      have seen := Reflection.nested_leads sound Rules.validCaller_none (values _ (.head _))
        position activate
      refine seen.answer (fun _ _ => trivial) fun answer after valid => ?_
      rcases answer with _ | info | ref
      · simp [Request.handedOut]
      · simp [Request.handedOut]
      · simpa [Request.handedOut] using valid ref rfl
  | digest f =>
      exact (Reflection.digest_leads sound (values _ (.head _))).silent (fun _ _ => trivial) fun _ => rfl
  | wrap f =>
      refine (Reflection.wrap_leads sound (values _ (.head _))).answer (fun _ _ => trivial) fun value after valid => ?_
      simpa [Request.handedOut] using valid
  | connect signal callback =>
      have connected := Connection.register_leads sound signal (values _ (.head _))
      exact connected.silent (fun _ _ => trivial) fun _ => rfl
  | setEnabled index enabled =>
      have changed := Connection.setEnabled_leads sound index enabled
      exact changed.lift.silent (fun _ _ => trivial) fun _ => rfl
  | disconnect index =>
      have changed := Connection.disconnect_leads sound index
      exact changed.lift.silent (fun _ _ => trivial) fun _ => rfl
  | fire index arguments =>
      have fired := Connection.fire_leads sound (Vm.callFromHost_runs conducts values) index
      exact fired.lift.silent (fun _ _ => trivial) fun _ => rfl
  | fireSignal signal arguments =>
      have fired := Connection.fireSignal_leads sound (Vm.callFromHost_runs conducts values) signal
      exact fired.lift.silent (fun _ _ => trivial) fun _ => rfl
  | level =>
      exact (Clearance.level_leads sound).lift.silent (fun _ _ => trivial) fun _ => rfl
  | setLevel level =>
      exact (Clearance.setLevel_leads sound level).silent (fun _ _ => trivial) fun _ => rfl
  | isTrusted =>
      exact (Clearance.isTrusted_leads sound).lift.silent (fun _ _ => trivial) fun _ => rfl
  | require operation level =>
      exact (Clearance.require_leads sound operation level).silent (fun _ _ => trivial) fun _ => rfl
  | filter kind criteria =>
      exact .get (.pure sound ⟨fun _ => valid_of_mem_filter, trivial⟩)
  | report name values =>
      exact .modify (sound.aside rfl rfl rfl rfl rfl rfl rfl rfl) (Rules.answered_nothing trivial rfl)

namespace Vm

-----------------------------------------------------------------------------------------
-- Natives
-----------------------------------------------------------------------------------------

/-- What a call within the running one leads to, for a closure that stays valid. -/
theorem nested_runs (conducts : rules.Conducts invoke) (active : 0 < m.activeCalls)
    {caller : Option ClosureRef} (caller_valid : rules.ValidCaller m caller) (depth : Nat)
    : rules.RunsNested (fun f arguments => invoke f arguments caller depth) m :=
  fun _ _ _ _ sound later same valid arguments_valid =>
    conducts depth sound (same ▸ active) valid arguments_valid
      fun ref called => later.valid (caller_valid ref called)

/-- A function of the host that keeps the rules hands out valid results, and gives up the slots
that belong to it; by induction over what it does.
-/
theorem runProgram_leads {nested : Script.Nested} (conducts : rules.Conducts invoke)
    {program : HostProgram} (sound : rules.Sound (mine ++ own) m) (active : 0 < m.activeCalls)
    (runs : rules.RunsNested nested m) (behaves : rules.Behaves program mine m)
    : rules.Leads own (runProgram invoke nested program) m
        fun results after => ∀ value ∈ results, rules.Valid after value := by
  have within {mine : List Guard} : own.Subperm (mine ++ own) :=
    (List.sublist_append_right ..).subperm
  induction program generalizing m mine with
  | finish results => exact .ok rfl ((Rules.Passed.refl sound).forget within) behaves
  | fail fault => exact .fail sound behaves within
  | call f arguments next ih =>
      obtain ⟨valid, goes_on⟩ := behaves
      obtain ⟨f_valid, arguments_valid⟩ := List.forall_mem_cons.mp valid
      have called := (runs sound (.refl m) rfl f_valid arguments_valid).attempt.losing within
      refine called.bind fun outcome after passed known => ?_
      refine ih outcome passed.sound (passed.active ▸ active) (runs.later passed) ?_
      refine goes_on after outcome passed.later ?_
      cases outcome with
      | ok results => exact known
      | error fault => exact known
  | ask request next ih =>
      obtain ⟨permits, answered, failed⟩ := behaves
      have served := (serve_tracks conducts sound (fun _ => active) permits).attempt.losing within
      refine (served.mapError fun _ => Rules.Tolerates.toFault).bind
        fun answer after passed known => ?_
      cases answer with
      | ok answer =>
          exact ih (.ok answer) passed.sound (passed.active ▸ active) (runs.later passed)
            (answered after answer passed.later known)
      | error failure =>
          exact ih (.error failure) passed.sound (passed.active ▸ active) (runs.later passed)
            (failed after failure passed.later known)
  | create name body bound next _ ih =>
      obtain ⟨valid, body_behaves, made, failed⟩ := behaves
      have native : rules.SoundNative m { name, body := .host body, bound } :=
        ⟨rfl, valid, body_behaves⟩
      have created := (createNative_leads sound native).lift.attempt.losing within
      refine (created.mapError fun _ => Rules.Tolerates.toFault).bind
        fun answer after passed known => ?_
      cases answer with
      | ok ref =>
          exact ih (.ok ref) passed.sound (passed.active ▸ active) (runs.later passed)
            (made after ref passed.later known)
      | error failure =>
          exact ih (.error failure) passed.sound (passed.active ▸ active) (runs.later passed)
            (failed after failure passed.later known)

theorem callNative_leads (conducts : rules.Conducts invoke) (sound : rules.Sound own m)
    (active : 0 < m.activeCalls) {ref : NativeRef} {arguments : List Value}
    {caller : Option ClosureRef} (depth : Nat) (valid : rules.Valid m (.native ref))
    (arguments_valid : ∀ value ∈ arguments, rules.Valid m value)
    (caller_valid : rules.ValidCaller m caller)
    : rules.Leads own (callNative invoke ref arguments caller depth) m
        fun results after => ∀ value ∈ results, rules.Valid after value := by
  have runs := nested_runs conducts active caller_valid (depth + 1)
  refine (native_leads sound valid).bind fun n after _ read => ?_
  obtain ⟨rfl, found⟩ := read
  obtain ⟨_, bound, conforms⟩ := sound.natives found
  obtain ⟨name, body, kept, marked⟩ := n
  cases body with
  | script f =>
      refine .get ?_
      split
      · exact (Script.run_leads sound runs caller_valid f arguments_valid).toVm
      · exact .fail sound (.of_blameless rfl) (.refl _)
  | method method index owner =>
      refine .get ?_
      split
      · exact Script.runMethod_leads sound runs method index owner arguments_valid
      · exact .fail sound (.of_blameless rfl) (.refl _)
  | wrapper inner => exact runs sound (.refl m) rfl (bound inner conforms) arguments_valid
  | host f =>
      have alone : rules.Sound ([] ++ own) m := sound
      exact runProgram_leads conducts alone active runs
        (conforms caller arguments m bound caller_valid arguments_valid)

-----------------------------------------------------------------------------------------
-- Calls
-----------------------------------------------------------------------------------------

theorem followRedirects_leads (sound : rules.Sound own m) (limit : Nat) {f : Value}
    (valid : rules.Valid m f)
    : rules.Leads own (followRedirects limit f) m
        fun target after => m = after ∧ rules.Valid m target := by
  induction limit generalizing f with
  | zero =>
      cases f with
      | closure ref =>
          rw [followRedirects]
          refine (closure_leads sound valid).bind fun c after _ read => ?_
          obtain ⟨rfl, _⟩ := read
          split
          · exact .pure sound ⟨rfl, valid⟩
          · exact .fail sound (.of_blameless rfl) (.refl _)
      | _ => exact .pure sound ⟨rfl, valid⟩
  | succ limit ih =>
      cases f with
      | closure ref =>
          rw [followRedirects]
          refine (closure_leads sound valid).bind fun c after _ read => ?_
          obtain ⟨rfl, found⟩ := read
          split
          · exact .pure sound ⟨rfl, valid⟩
          · rename_i next redirected
            exact ih ((sound.closures found).redirect next redirected)
      | _ => exact .pure sound ⟨rfl, valid⟩

theorem resolve_leads (sound : rules.Sound own m) {f : Value} (valid : rules.Valid m f)
    : rules.Leads own (resolve f) m
        fun target after => m = after ∧ rules.Valid m target :=
  .get (followRedirects_leads sound _ valid)

theorem checkDepth_leads (sound : rules.Sound own m) (depth : Nat)
    : rules.Leads own (checkDepth depth) m fun _ after => m = after := by
  refine .get ?_
  split
  · exact .fail sound (.of_blameless rfl) (.refl _)
  · exact .pure sound rfl

theorem callOther_leads (conducts : rules.Conducts invoke) (sound : rules.Sound own m)
    (active : 0 < m.activeCalls) {target : Value} {arguments : List Value}
    {caller : Option ClosureRef} (depth : Nat) (valid : rules.Valid m target)
    (arguments_valid : ∀ value ∈ arguments, rules.Valid m value)
    (caller_valid : rules.ValidCaller m caller)
    : rules.Leads own (callOther invoke target arguments caller depth) m
        fun results after => ∀ value ∈ results, rules.Valid after value := by
  cases target with
  | native ref =>
      exact callNative_leads conducts sound active depth valid arguments_valid caller_valid
  | table ref =>
      refine (metamethod_leads sound _ valid).bind fun handler after _ read => ?_
      obtain ⟨rfl, handler_valid⟩ := read
      split
      · exact conducts (depth + 1) sound active handler_valid
          (List.forall_mem_cons.mpr ⟨valid, arguments_valid⟩) caller_valid
      · exact .fail sound (.of_blameless rfl) (.refl _)
  | _ => exact .fail sound (.of_blameless rfl) (.refl _)

end Vm

-----------------------------------------------------------------------------------------
-- Stacks
-----------------------------------------------------------------------------------------

namespace Rules

/-- All open activations of a stack are valid. -/
def ValidStack (rules : Rules) (m : Machine) (layers : List Layer) : Prop :=
  ∀ layer ∈ layers, rules.ValidFrame m layer.frame

theorem ValidStack.later {layers : List Layer} (valid : rules.ValidStack m layers)
    (later : rules.Later m after)
    : rules.ValidStack after layers :=
  fun layer member => (valid layer member).later later

/-- What follows a stack is valid: results that leave it, or a stack again. -/
def ValidOutput (rules : Rules) (m : Machine) : List Value ⊕ (Layer × List Layer) → Prop
  | .inl results => ∀ value ∈ results, rules.Valid m value
  | .inr (top, callers) => rules.ValidStack m (top :: callers)

/-- Valid results go to a valid stack, or leave it; by induction over those that pass them on. -/
theorem ValidStack.unwind {results : List Value} {layers : List Layer}
    (valid : rules.ValidStack m layers) (results_valid : ∀ value ∈ results, rules.Valid m value)
    (resume : Resume)
    : rules.ValidOutput m (unwind results resume layers) := by
  induction layers generalizing resume with
  | nil => cases resume <;> exact results_valid
  | cons layer rest ih =>
      obtain ⟨first, others⟩ := List.forall_mem_cons.mp valid
      cases resume with
      | store a c => exact List.forall_mem_cons.mpr ⟨first.takeResults a c results_valid, others⟩
      | forward => exact ih others layer.resume

end Rules

namespace Vm

/-- One instruction of a valid stack leads to a valid one. -/
theorem advance_leads (conducts : rules.Conducts invoke) (sound : rules.Sound own m)
    (active : 0 < m.activeCalls) {top : Layer} {callers : List Layer}
    (valid : rules.ValidStack m (top :: callers))
    : rules.Leads own (advance invoke top callers) m
        fun output after => rules.ValidOutput after output := by
  obtain ⟨top_valid, callers_valid⟩ := List.forall_mem_cons.mp valid
  refine (step_leads conducts sound active top_valid).bind fun flow m₁ stepped known => ?_
  have below := Rules.ValidStack.later callers_valid stepped.later
  cases flow with
  | next frame => exact .pure stepped.sound (List.forall_mem_cons.mpr ⟨known, below⟩)
  | finish results => exact .pure stepped.sound (below.unwind known _)
  | call frame f arguments resume =>
      obtain ⟨frame_valid, f_valid, arguments_valid⟩ := known
      have below : rules.ValidStack m₁ ({ top with frame } :: callers) :=
        List.forall_mem_cons.mpr ⟨frame_valid, below⟩
      refine (checkDepth_leads stepped.sound _).bind fun _ after _ same => ?_
      subst same
      refine (resolve_leads stepped.sound f_valid).bind fun target after _ read => ?_
      obtain ⟨rfl, target_valid⟩ := read
      split
      · rename_i callee
        refine (openFrame_leads stepped.sound _ target_valid arguments_valid).bind
          fun opened m₂ passed opened_valid => ?_
        exact .pure passed.sound
          (List.forall_mem_cons.mpr ⟨opened_valid, below.later passed.later⟩)
      · have caller_valid : rules.ValidCaller m₁ (some frame.closure) := by
          rintro _ ⟨⟩
          exact frame_valid.closure
        refine (callOther_leads conducts stepped.sound (stepped.active ▸ active) _ target_valid
          arguments_valid caller_valid).bind fun results m₂ passed results_valid => ?_
        exact .pure passed.sound ((below.later passed.later).unwind results_valid resume)

/-- A valid stack runs to valid results, by induction over its instructions. -/
theorem runFrames_leads (conducts : rules.Conducts invoke) (sound : rules.Sound own m)
    (active : 0 < m.activeCalls) (fuel : Nat) {top : Layer} {callers : List Layer}
    (valid : rules.ValidStack m (top :: callers))
    : rules.Leads own (runFrames invoke fuel top callers) m
        fun results after => ∀ value ∈ results, rules.Valid after value := by
  induction fuel generalizing m top callers with
  | zero => exact Rules.Passed.refl sound
  | succ fuel ih =>
      refine (advance_leads conducts sound active valid).bind fun output after passed known => ?_
      split
      · exact .pure passed.sound known
      · exact ih passed.sound (passed.active ▸ active) known

/-- Calls keep the rules, by induction over how deep they may nest. -/
theorem call_conducts (fuel : Nat) : rules.Conducts (call fuel) := by
  induction fuel with
  | zero => exact fun _ _ _ _ _ _ sound _ _ _ _ => Rules.Passed.refl sound
  | succ fuel ih =>
      intro own m f arguments caller depth sound active valid arguments_valid caller_valid
      refine (checkDepth_leads sound depth).bind fun _ after _ same => ?_
      subst same
      refine (resolve_leads sound valid).bind fun target after _ read => ?_
      obtain ⟨rfl, target_valid⟩ := read
      split
      · refine (openFrame_leads sound depth target_valid arguments_valid).bind
          fun frame after passed frame_valid => ?_
        exact runFrames_leads ih passed.sound (passed.active ▸ active) fuel
          (List.forall_mem_cons.mpr ⟨frame_valid, by simp⟩)
      · exact callOther_leads ih sound active depth target_valid arguments_valid caller_valid

end Vm

end HookMachine
