import HookMachine.Proofs.Bounds.Instructions

/-!
The registries, the functions of scripts and the requests of hosts by the judgement of idling:
all but those that reach back into running code execute no instruction.
-/

namespace HookMachine

open Regime (Yields Idle)

variable {regime : Regime}

-----------------------------------------------------------------------------------------
-- Levels, environments and connections
-----------------------------------------------------------------------------------------

namespace Clearance

theorem level_idle : regime.Idle level :=
  .modifyGet fun _ => ⟨rfl, rfl, rfl⟩

theorem setLevel_idle (level : Int) : regime.Idle (setLevel level) := by
  have recorded : regime.Idle
      (modify fun m => { m with identities := m.identities.record m.context level.toNat }
        : Action Unit) :=
    .modify fun _ => ⟨rfl, rfl, rfl⟩
  unfold setLevel
  split
  · exact .failThen _ _
  · exact recorded

theorem isTrusted_idle : regime.Idle isTrusted :=
  level_idle.andThen fun _ => .pure trivial

theorem require_idle (operation : String) (required : Nat)
    : regime.Idle (require operation required) := by
  refine level_idle.lift.andThen fun actual => ?_
  split
  · exact Action.refuse_yields _
  · exact .pure trivial

theorem requirePrivilege_idle (operation : String) : regime.Idle (requirePrivilege operation) :=
  .andThen .get fun _ => require_idle operation _

end Clearance

namespace Environment

theorem tableOf_idle (guard : Guard) : regime.Idle (tableOf guard) := by
  unfold tableOf
  split
  · exact .pure trivial
  · exact Action.refuse_yields _

theorem fallback_idle : regime.Idle fallback := by
  refine .andThen .get fun m => ?_
  split
  · exact tableOf_idle _
  · refine Vm.newTable_idle.lift.andThen fun ref => ?_
    refine (Vm.hold_idle _).lift.andThen fun guard => .andThen .get fun _ => ?_
    refine .andThen (.onHalt ?_ (·.matches_letGo guard)) fun _ => ?_
    · exact (Vm.rawSet_idle _ _ _).lift.andThen fun _ => (Vm.setReadOnly_idle _ _).lift
    · exact .andThen (.modify fun _ => ⟨rfl, rfl, rfl⟩) fun _ => .pure trivial

theorem create_idle : regime.Idle create := by
  refine fallback_idle.andThen fun metatable => Vm.newTable_idle.lift.andThen fun ref => ?_
  refine (Vm.hold_idle _).lift.andThen fun guard => ?_
  exact .andThen (.onHalt (Vm.setMetatable_idle _ _).lift (·.matches_letGo guard)) fun _ =>
    .pure trivial

theorem recorded_idle (owner : EnvironmentOwner) : regime.Idle (recorded owner) := by
  refine .andThen .get fun m => ?_
  split
  · exact tableOf_idle _
  · refine create_idle.andThen fun guard => ?_
    exact .andThen (.modify fun _ => ⟨rfl, rfl, rfl⟩) fun _ => tableOf_idle guard

theorem find_idle (owner : EnvironmentOwner) : regime.Idle (find owner) := by
  unfold find
  split
  · exact recorded_idle _
  · exact (Vm.checkOwner_idle _).lift.andThen fun _ => recorded_idle _
  · exact (Vm.checkOwner_idle _).lift.andThen fun _ => recorded_idle _

theorem load_idle (owner : EnvironmentOwner) (prototype : PrototypeRef)
    : regime.Idle (load owner prototype) :=
  (find_idle owner).andThen fun _ => (Vm.instantiate_idle _ _).lift

end Environment

namespace Connection

theorem register_idle (signal : String) (callback : Value)
    : regime.Idle (register signal callback) := by
  have connected : regime.Idle (do
      let guard ← Vm.hold callback
      modifyGet fun m =>
        (m.connections.size,
          { m with connections := m.connections.push { signal, callback := some guard } })
      : Action Nat) :=
    (Vm.hold_idle _).lift.andThen fun _ => .modifyGet fun _ => ⟨rfl, rfl, rfl⟩
  unfold register
  split
  · exact connected
  · exact .failThen _ _

theorem setEnabled_idle (index : Nat) (on : Bool) : regime.Idle (setEnabled index on) :=
  .modifyGet fun _ => ⟨rfl, rfl, rfl⟩

theorem disconnect_idle (index : Nat) : regime.Idle (disconnect index) := by
  refine .modifyGet fun m => ?_
  dsimp only
  split
  · exact ⟨rfl, rfl, rfl⟩
  · exact ⟨rfl, rfl, rfl⟩

end Connection

-----------------------------------------------------------------------------------------
-- Hooks
-----------------------------------------------------------------------------------------

namespace Hook

theorem checkCallable_idle (value : Value) (subject : String)
    : regime.Idle (checkCallable value subject) := by
  unfold checkCallable
  split
  · exact .pure trivial
  · exact Action.refuse_yields _

/-- A guard is taken while others are held, which are given up if that fails. -/
theorem holdAmong_idle (value : Value) {undo : Machine → Machine}
    (same : ∀ m : Machine, m.Matches (undo m))
    : regime.Idle (Run.onHalt (Vm.hold value) undo : Action Guard) :=
  .onHalt (Vm.hold_idle value).lift same

theorem install_idle (target replacement : Value)
    : regime.Idle (install target replacement) := by
  unfold install
  split
  · exact .pure trivial
  · refine (checkCallable_idle _ _).andThen fun _ => ?_
    split
    · exact .failThen _ _
    · refine (Vm.clone_idle _).lift.andThen fun copy => ?_
      split
      · refine (Vm.hold_idle _).lift.andThen fun targetGuard => ?_
        refine (holdAmong_idle _ (·.matches_letGo _)).andThen fun formerGuard => ?_
        refine (holdAmong_idle _ (·.matches_letGoAll _)).andThen fun replacementGuard => ?_
        refine .andThen (.onHalt (Vm.setRedirect_idle _ _).lift (·.matches_letGoAll _)) fun _ => ?_
        refine .andThen .get fun m => .andThen (.modify fun _ => ⟨rfl, rfl, rfl⟩) fun _ => ?_
        dsimp only
        split
        · exact .andThen (.modify (·.matches_letGoAll _)) fun _ => .pure trivial
        · exact .pure trivial
      · exact Action.refuse_yields _
  · exact Action.refuse_yields _

theorem restore_idle (target : Value) : regime.Idle (restore target) := by
  unfold restore
  split
  · refine .andThen .get fun m => ?_
    split
    · exact .pure trivial
    · refine .andThen (.modify fun _ => ⟨rfl, rfl, rfl⟩) fun _ => ?_
      refine .andThen (.onHalt (Vm.setRedirect_idle _ _).lift (·.matches_letGoAll _)) fun _ => ?_
      exact .andThen (.modify (·.matches_letGoAll _)) fun _ => .pure trivial
  · exact .pure trivial

theorem writeUnprotected_idle (ref : TableRef) (key value : Value)
    : regime.Idle (writeUnprotected ref key value) := by
  refine (Vm.table_idle ref).andThen fun t => (Vm.setReadOnly_idle _ _).andThen fun _ => ?_
  refine (Vm.rawSet_idle ref key value).attempt.andThen fun written => ?_
  refine (Vm.setReadOnly_idle _ _).andThen fun _ => ?_
  split
  · exact .pure trivial
  · exact .fail _

theorem takePrevious_idle (slot : MetamethodSlot) (existing : Value)
    : regime.Idle (takePrevious slot existing) := by
  refine .andThen .get fun m => ?_
  split
  · refine .andThen (.modify fun _ => ⟨rfl, rfl, rfl⟩) fun _ => ?_
    exact .andThen (.modify (·.matches_letGoAll _)) fun _ => .pure trivial
  · exact (Vm.hold_idle _).lift

theorem installMetamethod_idle (object : Value) (name : String) (replacement : Value)
    : regime.Idle (installMetamethod object name replacement) := by
  refine (checkCallable_idle _ _).andThen fun _ => ?_
  refine (Vm.metatable_idle _).lift.andThen fun metatable => ?_
  split
  · exact Action.refuse_yields _
  · refine (Vm.rawGet_idle _ _).lift.andThen fun existing => ?_
    split
    · exact .failThen _ _
    · refine (Vm.clone_idle _).lift.andThen fun copy => ?_
      refine (takePrevious_idle _ _).andThen fun previous => ?_
      refine (holdAmong_idle _ (·.matches_letGo _)).andThen fun formerGuard => ?_
      refine (holdAmong_idle _ (·.matches_letGoAll _)).andThen fun replacementGuard => ?_
      refine .andThen
        (.onHalt (writeUnprotected_idle _ _ _).lift (·.matches_letGoAll _)) fun _ => ?_
      exact .andThen (.modify fun _ => ⟨rfl, rfl, rfl⟩) fun _ => .pure trivial

theorem restoreMetamethod_idle (object : Value) (name : String)
    : regime.Idle (restoreMetamethod object name) := by
  refine (Vm.metatable_idle _).lift.andThen fun metatable => ?_
  split
  · exact .pure trivial
  · refine .andThen .get fun m => ?_
    split
    · exact .pure trivial
    · refine .andThen (.modify fun _ => ⟨rfl, rfl, rfl⟩) fun _ => ?_
      refine .andThen
        (.onHalt (writeUnprotected_idle _ _ _).lift (·.matches_letGoAll _)) fun _ => ?_
      exact .andThen (.modify (·.matches_letGoAll _)) fun _ => .pure trivial

end Hook

-----------------------------------------------------------------------------------------
-- Reflection
-----------------------------------------------------------------------------------------

namespace Reflection

theorem prototypeOf_idle (f : Value) : regime.Idle (prototypeOf f) := by
  unfold prototypeOf
  split
  · exact (Vm.closure_idle _).lift.andThen fun _ => .pure trivial
  · exact .pure trivial
  · exact Action.refuse_yields _

theorem inspect_idle {α : Type} (f : Value) (view : Prototype → α)
    : regime.Idle (inspect f view) := by
  refine (prototypeOf_idle f).andThen fun found => ?_
  split
  · exact .pure trivial
  · exact (Vm.prototype_idle _).lift.andThen fun _ => .pure trivial

theorem constant_idle (f : Value) (position : Int) : regime.Idle (constant f position) :=
  (inspect_idle f _).andThen fun _ => .pure trivial

theorem setConstant_idle (f : Value) (position : Int) (value : Value)
    : regime.Idle (setConstant f position value) := by
  refine (Vm.checkOwner_idle _).lift.andThen fun _ => (prototypeOf_idle f).andThen fun found => ?_
  split
  · exact .pure trivial
  · refine (Vm.prototype_idle _).lift.andThen fun p => ?_
    split
    · exact .pure trivial
    · exact .andThen (.modify fun _ => ⟨rfl, rfl, rfl⟩) fun _ => .pure trivial

theorem nested_idle (caller : Option ClosureRef) (f : Value) (position : Int) (activate : Bool)
    : regime.Idle (nested caller f position activate) := by
  unfold nested
  split
  · refine (Vm.closure_idle _).lift.andThen fun c => (Vm.prototype_idle _).lift.andThen fun p => ?_
    dsimp only
    split
    · exact .pure trivial
    · split
      · refine (Vm.closure_idle _).lift.andThen fun c => ?_
        exact (Vm.instantiate_idle _ _).lift.andThen fun _ => .pure trivial
      · exact (Vm.prototype_idle _).lift.andThen fun _ => .pure trivial
  · exact (prototypeOf_idle _).andThen fun _ => .pure trivial

theorem wrap_idle (f : Value) : regime.Idle (wrap f) := by
  unfold wrap
  split
  · exact .pure trivial
  · refine (Vm.functionName_idle _).lift.andThen fun name => ?_
    refine .andThen (.lift (Vm.createNative_idle ?_)) fun _ => .pure trivial
    rintro f ⟨⟩
  · exact Action.refuse_yields _

theorem isRuntimeFunction_idle (f : Value) : regime.Idle (isRuntimeFunction f) := by
  unfold isRuntimeFunction
  split
  · exact .pure trivial
  · exact .andThen .get fun _ => .pure trivial
  · exact Action.refuse_yields _

end Reflection

-----------------------------------------------------------------------------------------
-- Functions of scripts
-----------------------------------------------------------------------------------------

namespace Script

theorem required_idle (arguments : List Value) (i : Nat) (what : String)
    : regime.Idle (required arguments i what) := by
  unfold required
  split
  · exact Action.refuse_yields _
  · exact .pure trivial

theorem integer_idle (arguments : List Value) (i : Nat) (what : String)
    : regime.Idle (integer arguments i what) := by
  unfold integer
  dsimp only
  split
  · split
    · exact .pure trivial
    · exact Action.refuse_yields _
  · exact Action.refuse_yields _

theorem string_idle (arguments : List Value) (i : Nat) (what : String)
    : regime.Idle (string arguments i what) := by
  unfold string
  split
  · exact .pure trivial
  · exact Action.refuse_yields _

theorem table_idle (arguments : List Value) (i : Nat) (operation : String)
    : regime.Idle (table arguments i operation) := by
  unfold table
  split
  · exact .pure trivial
  · exact Action.refuse_yields _

theorem fillList_idle (ref : TableRef) (start : Nat) (values : List Value)
    : regime.Idle (fillList ref start values) := by
  induction values generalizing start with
  | nil => exact .pure trivial
  | cons value rest ih => exact (Vm.rawSet_idle _ _ _).andThen fun _ => ih _

theorem listTable_idle (values : List Value) : regime.Idle (listTable values) :=
  Vm.newTable_idle.andThen fun _ => (fillList_idle _ _ _).andThen fun _ => .pure trivial

theorem setFields_idle (ref : TableRef) (fields : List (String × Value))
    : regime.Idle (setFields ref fields) := by
  induction fields with
  | nil => exact .pure trivial
  | cons field rest ih => exact (Vm.rawSet_idle _ _ _).andThen fun _ => ih

theorem infoTable_idle (info : PrototypeInfo) : regime.Idle (infoTable info) :=
  Vm.newTable_idle.andThen fun _ => (setFields_idle _ _).andThen fun _ => .pure trivial

theorem setMethods_idle (ref : TableRef) (index : Nat) (methods : List ConnectionMethod)
    : regime.Idle (setMethods ref index methods) := by
  induction methods with
  | nil => exact .pure trivial
  | cons m rest ih =>
      refine .andThen (Vm.newNative_idle ?_) fun native => ?_
      · rintro f ⟨⟩
      · exact (Vm.rawSet_idle _ _ _).andThen fun _ => ih

theorem connectionTable_idle (index : Nat) : regime.Idle (connectionTable index) :=
  Vm.newTable_idle.andThen fun _ => .andThen .get fun _ =>
    (setFields_idle _ _).andThen fun _ => (setMethods_idle _ _ _).andThen fun _ => .pure trivial

theorem countCriterion_idle (ref : TableRef) (name : String)
    : regime.Idle (countCriterion ref name) := by
  refine (Vm.rawGet_idle _ _).lift.andThen fun value => ?_
  dsimp only
  split
  · exact .pure trivial
  · split
    · split
      · exact .pure trivial
      · exact Action.refuse_yields _
    · exact Action.refuse_yields _
  · exact Action.refuse_yields _

theorem listCriterion_idle (ref : TableRef) (name : String)
    : regime.Idle (listCriterion ref name) := by
  refine (Vm.rawGet_idle _ _).lift.andThen fun value => ?_
  split
  · exact .pure trivial
  · exact (Vm.table_idle _).lift.andThen fun _ => .pure trivial
  · exact Action.refuse_yields _

theorem criteria_idle (ref : TableRef) : regime.Idle (criteria ref) :=
  (Vm.rawGet_idle _ _).lift.andThen fun _ => (countCriterion_idle _ _).andThen fun _ =>
    (countCriterion_idle _ _).andThen fun _ => (Vm.rawGet_idle _ _).lift.andThen fun _ =>
      (listCriterion_idle _ _).andThen fun _ => (listCriterion_idle _ _).andThen fun _ =>
        (Vm.rawGet_idle _ _).lift.andThen fun _ => .pure trivial

/-- A result that an operation supplies alone. -/
theorem single_idle {α : Type} {x : Action α} (idle : regime.Idle x) (view : α → Value)
    : regime.Idle (do return [view (← x)] : Action (List Value)) :=
  idle.andThen fun _ => .pure trivial

/-- Every function of scripts but the one that fires a signal. -/
theorem run_idle (nested : Nested) (caller : Option ClosureRef) {f : ScriptFunction}
    (aside : f ≠ .fireSignal) (arguments : List Value)
    : regime.Idle (run nested caller f arguments) := by
  have privileged {x : Action (List Value)} (operation : String) (idle : regime.Idle x)
      : regime.Idle (do Clearance.requirePrivilege operation; x) :=
    (Clearance.requirePrivilege_idle operation).andThen fun _ => idle
  have protecting (on : Bool) (operation : String)
      : regime.Idle (do
          let ref ← table arguments 0 operation
          Vm.setReadOnly ref on
          return [.table ref] : Action (List Value)) :=
    (table_idle _ _ _).andThen fun _ => (Vm.setReadOnly_idle _ _).lift.andThen fun _ =>
      .pure trivial
  cases f with
  | getGlobalEnv => exact single_idle (Environment.find_idle _) _
  | getRootEnv => exact single_idle .get _
  | getScriptEnv | getModuleEnv =>
      exact (required_idle _ _ _).andThen fun _ => single_idle (Environment.find_idle _) _
  | installHook => exact privileged _ (single_idle (Hook.install_idle _ _) _)
  | restoreHook => exact single_idle (Hook.restore_idle _) _
  | installMetamethodHook =>
      exact privileged _
        ((string_idle _ _ _).andThen fun _ => single_idle (Hook.installMetamethod_idle _ _ _) _)
  | restoreMetamethodHook =>
      exact (string_idle _ _ _).andThen fun _ =>
        single_idle (Hook.restoreMetamethod_idle _ _) _
  | setProtected =>
      exact privileged _ ((table_idle _ _ _).andThen fun _ =>
        (Vm.setReadOnly_idle _ _).lift.andThen fun _ => .pure trivial)
  | isProtected =>
      exact (table_idle _ _ _).andThen fun _ => single_idle (Vm.table_idle _).lift _
  | makeReadonly => exact privileged _ (protecting true _)
  | makeWriteable => exact privileged _ (protecting false _)
  | getRawMetatable => exact single_idle (Vm.metatable_idle _).lift _
  | setRawMetatable =>
      refine privileged _ ((table_idle _ _ _).andThen fun ref => ?_)
      split
      · exact (Vm.setMetatable_idle _ _).lift.andThen fun _ => .pure trivial
      · exact (Vm.setMetatable_idle _ _).lift.andThen fun _ => .pure trivial
      · exact .failThen _ _
  | setIdentity =>
      exact (integer_idle _ _ _).andThen fun _ => (Clearance.setLevel_idle _).andThen fun _ =>
        .pure trivial
  | getIdentity => exact single_idle Clearance.level_idle.lift _
  | checkCaller => exact single_idle Clearance.isTrusted_idle.lift _
  | getConstant =>
      exact (integer_idle _ _ _).andThen fun _ => single_idle (Reflection.constant_idle _ _) _
  | setConstant =>
      exact privileged _ ((integer_idle _ _ _).andThen fun _ =>
        single_idle (Reflection.setConstant_idle _ _ _) _)
  | getConstants =>
      refine (Reflection.inspect_idle _ _).andThen fun constants => ?_
      split
      · exact single_idle (listTable_idle _).lift _
      · exact .pure trivial
  | getNested =>
      refine (integer_idle _ _ _).andThen fun position => ?_
      refine (Reflection.nested_idle _ _ _ _).andThen fun nested => ?_
      split
      · exact .pure trivial
      · exact single_idle (infoTable_idle _).lift _
      · exact .pure trivial
  | getProtoInfo =>
      refine (Reflection.inspect_idle _ _).andThen fun info => ?_
      split
      · exact single_idle (infoTable_idle _).lift _
      · exact .pure trivial
  | functionHash => exact single_idle (Reflection.inspect_idle _ _) _
  | cloneFunction => exact single_idle (Vm.clone_idle _).lift _
  | isLclosure | isNative =>
      unfold run
      dsimp only
      split <;> exact .pure trivial
  | newNativeClosure => exact single_idle (Reflection.wrap_idle _) id
  | isRuntimeClosure | checkClosure => exact single_idle (Reflection.isRuntimeFunction_idle _) _
  | getRegistry => exact .andThen .get fun _ => single_idle (listTable_idle _).lift _
  | registerConnection =>
      exact (string_idle _ _ _).andThen fun _ => (Connection.register_idle _ _).andThen fun _ =>
        single_idle (connectionTable_idle _).lift _
  | getConnections =>
      refine (string_idle _ _ _).andThen fun signal => .andThen .get fun m => ?_
      refine (Yields.mapM (fun index => ?_) _).andThen fun handles => ?_
      · exact (connectionTable_idle index).lift.andThen fun _ => .pure trivial
      · exact single_idle (listTable_idle handles).lift _
  | fireSignal => exact absurd rfl aside
  | enumerateObjects => exact .andThen .get fun _ => single_idle (listTable_idle _).lift _
  | filterObjects =>
      refine (string_idle _ _ _).andThen fun name => ?_
      split
      · exact Action.refuse_yields _
      · have listed (kind : ObjectKind) (criteria : Criteria)
            : regime.Idle (do
                return [.table (← listTable (Inspection.filter (← get) kind criteria))]
              : Action (List Value)) :=
          .andThen .get fun _ => single_idle (listTable_idle _).lift _
        split
        · exact listed _ _
        · exact (criteria_idle _).andThen fun _ => listed _ _
        · exact .failThen _ _

/-- Every method of a connection handle but the one that fires it. -/
theorem runMethod_idle (nested : Nested) {m : ConnectionMethod} (aside : m ≠ .fire)
    (index : Nat) (owner : TableRef) (arguments : List Value)
    : regime.Idle (runMethod nested m index owner arguments) := by
  cases m with
  | enable | disable => exact (Connection.setEnabled_idle _ _).andThen fun _ => .pure trivial
  | fire => exact absurd rfl aside
  | disconnect => exact (Connection.disconnect_idle _).andThen fun _ => .pure trivial

end Script

-----------------------------------------------------------------------------------------
-- Requests
-----------------------------------------------------------------------------------------

/-- Whether a request is one that enters the machine anew. -/
def Request.enters : Request → Bool
  | .call .. | .index .. | .assign .. | .readShared _ | .fire .. | .fireSignal .. => true
  | _ => false

/-- The natives that survive a collection run what they ran before. -/
theorem Heap.body_of_collect {heap : Heap} {around : Surroundings} {roots : List Value}
    {handle : Handle} {n : Native}
    (found : (heap.collect around roots).2.natives.get handle = .ok n)
    : ∃ before, heap.natives.get handle = .ok before ∧ n.body = before.body := by
  have wiped := congrArg natives (clearMarks_markAll around heap (heap.anchors roots))
  have kept := ((Arena.get_map_retain wiped).mp found).1
  change (heap.natives.map _).get handle = _ at kept
  rw [Arena.get_map] at kept
  rcases held : heap.natives.get handle with miss | before <;> rw [held] at kept
  · cases kept
  · cases kept
    exact ⟨before, rfl, rfl⟩

theorem collect_idle : regime.Idle (modifyGet Machine.collect : Action (Option Nat)) := by
  refine ⟨fun m governs => ?_⟩
  change regime.Idles m (m.collect).2 ∧ True
  unfold Machine.collect
  split
  · exact ⟨.refl governs, trivial⟩
  · refine ⟨⟨⟨governs.config, fun found => ?_⟩, rfl⟩, trivial⟩
    obtain ⟨before, held, same⟩ := Heap.body_of_collect found
    exact (governs.employs held).of_body same

/-- Every request but those that enter the machine anew. -/
theorem serve_idle (invoke : Invoke) {request : Request} (aside : request.enters = false)
    : regime.Idle (serve invoke request) := by
  have looks {α : Type} (view : Machine → α) : regime.Idle (do return view (← get) : Action α) :=
    .andThen .get fun _ => .pure trivial
  cases request with
  | call | index | assign | readShared | fire | fireSignal => simp [Request.enters] at aside
  | newTable => exact Vm.newTable_idle.lift
  | assemble => exact (Vm.addPrototype_idle _).lift
  | instantiate => exact (Vm.instantiate_idle _ _).lift
  | load => exact Environment.load_idle _ _
  | contents => exact (Vm.table_idle _).lift
  | rawGet => exact (Vm.rawGet_idle _ _).lift
  | rawSet => exact (Vm.rawSet_idle _ _ _).lift
  | metatable => exact (Vm.metatable_idle _).lift
  | setMetatable => exact (Vm.setMetatable_idle _ _).lift
  | isReadOnly => exact (Vm.table_idle _).lift.andThen fun _ => .pure trivial
  | setReadOnly => exact (Vm.setReadOnly_idle _ _).lift
  | closureEnvironment | upvalueCount =>
      exact (Vm.closure_idle _).lift.andThen fun _ => .pure trivial
  | functionName => exact (Vm.functionName_idle _).lift
  | clone => exact (Vm.clone_idle _).lift
  | redirect => exact (Vm.setRedirect_idle _ _).lift
  | checkOwner => exact (Vm.checkOwner_idle _).lift
  | collect => exact collect_idle
  | retain => exact (Vm.retain_idle _).lift
  | release => exact (Vm.release_idle _).lift
  | hold => exact (Vm.hold_idle _).lift
  | letGo => exact .modify (·.matches_letGo _)
  | environment => exact Environment.find_idle _
  | hook => exact Hook.install_idle _ _
  | unhook => exact Hook.restore_idle _
  | hookMetamethod => exact Hook.installMetamethod_idle _ _ _
  | unhookMetamethod => exact Hook.restoreMetamethod_idle _ _
  | isRuntimeFunction => exact Reflection.isRuntimeFunction_idle _
  | constant => exact Reflection.constant_idle _ _
  | setConstant => exact Reflection.setConstant_idle _ _ _
  | constants | info | digest => exact Reflection.inspect_idle _ _
  | nested => exact Reflection.nested_idle _ _ _ _
  | wrap => exact Reflection.wrap_idle _
  | connect => exact Connection.register_idle _ _
  | setEnabled => exact (Connection.setEnabled_idle _ _).lift
  | disconnect => exact (Connection.disconnect_idle _).lift
  | level => exact Clearance.level_idle.lift
  | setLevel => exact Clearance.setLevel_idle _
  | isTrusted => exact Clearance.isTrusted_idle.lift
  | require => exact Clearance.require_idle _ _
  | report => exact .modify fun _ => ⟨rfl, rfl, rfl⟩
  | stats | objects | resolve | retained | guardCount | environmentCount | isHooked | isOwned
  | hookCount | connectionsOf | connection | connectionCount | contextCount | filter | isAlive =>
      exact looks _

end HookMachine
