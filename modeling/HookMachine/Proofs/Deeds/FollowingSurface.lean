import HookMachine.Proofs.Deeds.Following

/-!
Functions of scripts, requests and plans by the judgement on relations between machines. What copies
closures is told by the values that are copied; what makes closures and what changes connections
leads where a relation goes that lets these pass.
-/

namespace HookMachine

open Machine (Lenient)
open Run (Looks Follows)

variable {α β : Type} {R : Machine → Machine → Prop} [Lenient R] {m after : Machine}

-----------------------------------------------------------------------------------------
-- Reflection and functions of scripts
-----------------------------------------------------------------------------------------

namespace Reflection

theorem prototypeOf_follows (f : Value) : Follows R (prototypeOf f) := by
  unfold prototypeOf
  split
  · exact .andThen (.lift (.looks (Vm.closure_looks _))) fun _ => .pure _
  · exact .pure _
  · exact Action.refuse_follows _

theorem inspect_follows (f : Value) (view : Prototype → α) : Follows R (inspect f view) := by
  refine (prototypeOf_follows f).andThen fun found => ?_
  split
  · exact .pure _
  · exact .andThen (.lift (.looks (Vm.prototype_looks _))) fun _ => .pure _

theorem constant_follows (f : Value) (position : Int) : Follows R (constant f position) :=
  (inspect_follows f _).andThen fun _ => .pure _

theorem setConstant_follows (f : Value) (position : Int) (value : Value)
    : Follows R (setConstant f position value) := by
  refine .andThen (.lift (.looks (Vm.checkOwner_looks value))) fun _ => ?_
  refine (prototypeOf_follows f).andThen fun found => ?_
  split
  · exact .pure _
  · refine .andThen (.lift (.looks (Vm.prototype_looks _))) fun p => ?_
    split
    · exact .pure _
    · exact .andThen (.modify fun _ => Lenient.aside rfl rfl rfl rfl rfl) fun _ => .pure _

theorem nested_follows
    (made : ∀ prototype environment, Follows R (Vm.instantiate prototype environment))
    (caller : Option ClosureRef) (f : Value) (position : Int) (activate : Bool)
    : Follows R (nested caller f position activate) := by
  unfold nested
  split
  · refine .andThen (.lift (.looks (Vm.closure_looks _))) fun c => ?_
    refine .andThen (.lift (.looks (Vm.prototype_looks _))) fun p => ?_
    dsimp only
    split
    · exact .pure _
    · split
      · refine .andThen (.lift (.looks (Vm.closure_looks _))) fun c => ?_
        exact (made _ _).lift.andThen fun _ => .pure _
      · exact .andThen (.lift (.looks (Vm.prototype_looks _))) fun _ => .pure _
  · exact (prototypeOf_follows _).andThen fun _ => .pure _

theorem wrap_follows (f : Value) : Follows R (wrap f) := by
  unfold wrap
  split
  · exact .pure _
  · refine .andThen (.lift (.looks (Vm.functionName_looks _))) fun name => ?_
    exact (Vm.createNative_follows _).lift.andThen fun _ => .pure _
  · exact Action.refuse_follows _

theorem isRuntimeFunction_follows (f : Value) : Follows R (isRuntimeFunction f) := by
  unfold isRuntimeFunction
  split
  · exact .pure _
  · exact .andThen .get fun _ => .pure _
  · exact Action.refuse_follows _

end Reflection

/-- A relation lets connections change. -/
def Machine.Wires (R : Machine → Machine → Prop) : Prop :=
  ∀ (m : Machine) connections, R m { m with connections }

/-- Functions of scripts that copy closures. -/
def ScriptFunction.copies : ScriptFunction → Bool
  | cloneFunction | installHook | installMetamethodHook => true
  | _ => false

namespace Script

theorem required_follows (arguments : List Value) (i : Nat) (what : String)
    : Follows R (required arguments i what) := by
  unfold required
  split
  · exact Action.refuse_follows _
  · exact .pure _

theorem string_follows (arguments : List Value) (i : Nat) (what : String)
    : Follows R (string arguments i what) := by
  unfold string
  split
  · exact .pure _
  · exact Action.refuse_follows _

theorem table_follows (arguments : List Value) (i : Nat) (operation : String)
    : Follows R (table arguments i operation) := by
  unfold table
  split
  · exact .pure _
  · exact Action.refuse_follows _

theorem fillList_follows (ref : TableRef) (start : Nat) (values : List Value)
    : Follows R (fillList ref start values) := by
  induction values generalizing start with
  | nil => exact .pure ()
  | cons value rest ih => exact (Vm.rawSet_follows _ _ _).andThen fun _ => ih _

theorem listTable_follows (values : List Value) : Follows R (listTable values) :=
  Vm.newTable_follows.andThen fun _ => (fillList_follows _ _ _).andThen fun _ => .pure _

theorem setFields_follows (ref : TableRef) (fields : List (String × Value))
    : Follows R (setFields ref fields) := by
  induction fields with
  | nil => exact .pure ()
  | cons field rest ih => exact (Vm.rawSet_follows _ _ _).andThen fun _ => ih

theorem infoTable_follows (info : PrototypeInfo) : Follows R (infoTable info) :=
  Vm.newTable_follows.andThen fun _ => (setFields_follows _ _).andThen fun _ => .pure _

theorem setMethods_follows (ref : TableRef) (index : Nat) (methods : List ConnectionMethod)
    : Follows R (setMethods ref index methods) := by
  induction methods with
  | nil => exact .pure ()
  | cons m rest ih =>
      exact (Vm.newNative_follows _).andThen fun _ => (Vm.rawSet_follows _ _ _).andThen fun _ => ih

theorem connectionTable_follows (index : Nat) : Follows R (connectionTable index) :=
  Vm.newTable_follows.andThen fun _ => .andThen .get fun _ => (setFields_follows _ _).andThen fun _ =>
    (setMethods_follows _ _ _).andThen fun _ => .pure _

theorem countCriterion_follows (ref : TableRef) (name : String)
    : Follows R (countCriterion ref name) := by
  refine .andThen (.lift (.looks (Vm.rawGet_looks _ _))) fun value => ?_
  dsimp only
  split
  · exact .pure _
  · split
    · split
      · exact .pure _
      · exact Action.refuse_follows _
    · exact Action.refuse_follows _
  · exact Action.refuse_follows _

theorem listCriterion_follows (ref : TableRef) (name : String)
    : Follows R (listCriterion ref name) := by
  refine .andThen (.lift (.looks (Vm.rawGet_looks _ _))) fun value => ?_
  split
  · exact .pure _
  · exact .andThen (.lift (.looks (Vm.table_looks _))) fun _ => .pure _
  · exact Action.refuse_follows _

theorem criteria_follows (ref : TableRef) : Follows R (criteria ref) := by
  have read (name : String) : Follows R (liftM (Vm.rawGet ref (.string name)) : Action Value) :=
    .lift (.looks (Vm.rawGet_looks _ _))
  exact (read _).andThen fun _ => (countCriterion_follows _ _).andThen fun _ =>
    (countCriterion_follows _ _).andThen fun _ => (read _).andThen fun _ =>
      (listCriterion_follows _ _).andThen fun _ => (listCriterion_follows _ _).andThen fun _ =>
        (read _).andThen fun _ => .pure _

/-- A result that an operation supplies alone. -/
theorem single_follows {x : Action α} (follows : Follows R x) (view : α → Value)
    : Follows R (do return [view (← x)] : Action (List Value)) :=
  follows.andThen fun _ => .pure _

theorem register_follows (wires : Machine.Wires R) (signal : String) (callback : Value)
    : Follows R (Connection.register signal callback) := by
  unfold Connection.register
  split
  · exact (Vm.hold_follows callback).lift.andThen fun _ => .modifyGet fun m => wires m _
  · exact .failThen _ _

omit [Lenient R] in
theorem setEnabled_follows (wires : Machine.Wires R) (index : Nat) (on : Bool)
    : Follows R (Connection.setEnabled index on) :=
  .modifyGet fun m => wires m _

theorem disconnect_follows (wires : Machine.Wires R) (index : Nat)
    : Follows R (Connection.disconnect index) := by
  refine .modifyGet fun m => ?_
  have disconnected := wires m (ConnectionRegistry.disconnect m.connections index)
  dsimp only
  split
  · exact Lenient.trans disconnected (Lenient.letGo _ _)
  · exact disconnected

/-- Every function of scripts but those that copy a closure or fire a signal. -/
theorem run_follows
    (made : ∀ prototype environment, Follows R (Vm.instantiate prototype environment))
    (nested : Nested) (caller : Option ClosureRef) {f : ScriptFunction} (arguments : List Value)
    (uncopied : f.copies = false) (wires : f = .registerConnection → Machine.Wires R)
    (quiet : f ≠ .fireSignal)
    : Follows R (run nested caller f arguments) := by
  have gated {x : Action (List Value)} (operation : String) (follows : Follows R x)
      : Follows R (do Clearance.requirePrivilege operation; x : Action (List Value)) :=
    (Clearance.requirePrivilege_follows operation).andThen fun _ => follows
  have integer (what : String) (i : Nat) : Follows R (Script.integer arguments i what) :=
    .looks (integer_looks _ _ _)
  have protecting (on : Bool) (operation : String)
      : Follows R (do
          let ref ← table arguments 0 operation
          Vm.setReadOnly ref on
          return [.table ref] : Action (List Value)) :=
    (table_follows _ _ _).andThen fun _ => (Vm.setReadOnly_follows _ _).lift.andThen fun _ => .pure _
  cases f with
  | getGlobalEnv => exact single_follows (Environment.find_follows _) _
  | getRootEnv => exact single_follows .get _
  | getScriptEnv | getModuleEnv =>
      exact (required_follows _ _ _).andThen fun _ => single_follows (Environment.find_follows _) _
  | restoreHook => exact single_follows (Hook.restore_follows _) _
  | restoreMetamethodHook =>
      exact (string_follows _ _ _).andThen fun _ => single_follows (Hook.restoreMetamethod_follows _ _) _
  | setProtected =>
      refine gated _ ((table_follows _ _ _).andThen fun ref => ?_)
      exact (Vm.setReadOnly_follows _ _).lift.andThen fun _ => .pure _
  | isProtected =>
      exact (table_follows _ _ _).andThen fun _ => single_follows (.lift (.looks (Vm.table_looks _))) _
  | makeReadonly => exact gated _ (protecting true _)
  | makeWriteable => exact gated _ (protecting false _)
  | getRawMetatable => exact single_follows (.lift (.looks (Vm.metatable_looks _))) _
  | setRawMetatable =>
      refine gated _ ((table_follows _ _ _).andThen fun ref => ?_)
      have attached (metatable : Option TableRef)
          : Follows R (liftM (Vm.setMetatable ref metatable) : Action Unit) :=
        (Vm.setMetatable_follows ref metatable).lift
      split
      · exact (attached _).andThen fun _ => .pure _
      · exact (attached _).andThen fun _ => .pure _
      · exact .failThen _ _
  | setIdentity =>
      exact (integer _ _).andThen fun _ => (Clearance.setLevel_follows _).andThen fun _ => .pure _
  | getIdentity => exact single_follows Clearance.level_follows.lift _
  | checkCaller => exact single_follows Clearance.isTrusted_follows.lift _
  | getConstant =>
      exact (integer _ _).andThen fun _ => single_follows (Reflection.constant_follows _ _) _
  | setConstant =>
      refine gated _ ((integer _ _).andThen fun _ => ?_)
      exact single_follows (Reflection.setConstant_follows _ _ _) _
  | getConstants =>
      refine (Reflection.inspect_follows _ _).andThen fun constants => ?_
      split
      · exact single_follows (listTable_follows _).lift _
      · exact .pure _
  | getNested =>
      refine (integer _ _).andThen fun position => ?_
      refine (Reflection.nested_follows made _ _ _ _).andThen fun nested => ?_
      split
      · exact .pure _
      · exact single_follows (infoTable_follows _).lift _
      · exact .pure _
  | getProtoInfo =>
      refine (Reflection.inspect_follows _ _).andThen fun info => ?_
      split
      · exact single_follows (infoTable_follows _).lift _
      · exact .pure _
  | functionHash => exact single_follows (Reflection.inspect_follows _ _) _
  | cloneFunction | installHook | installMetamethodHook => cases uncopied
  | isLclosure | isNative =>
      unfold run
      dsimp only
      split <;> exact .pure _
  | newNativeClosure => exact single_follows (Reflection.wrap_follows _) id
  | isRuntimeClosure | checkClosure => exact single_follows (Reflection.isRuntimeFunction_follows _) _
  | getRegistry => exact .andThen .get fun _ => single_follows (listTable_follows _).lift _
  | registerConnection =>
      refine (string_follows _ _ _).andThen fun signal => ?_
      refine (register_follows (wires rfl) _ _).andThen fun index => ?_
      exact single_follows (connectionTable_follows index).lift _
  | getConnections =>
      refine (string_follows _ _ _).andThen fun signal => .andThen .get fun m => ?_
      refine .andThen (.mapM (fun index => ?_) _) fun handles => ?_
      · exact (connectionTable_follows index).lift.andThen fun _ => .pure _
      · exact single_follows (listTable_follows handles).lift _
  | fireSignal => exact absurd rfl quiet
  | enumerateObjects => exact .andThen .get fun _ => single_follows (listTable_follows _).lift _
  | filterObjects =>
      refine (string_follows _ _ _).andThen fun name => ?_
      split
      · exact Action.refuse_follows _
      · have listed (kind : ObjectKind) (criteria : Criteria)
            : Follows R (do
                return [.table (← listTable (Inspection.filter (← get) kind criteria))]
              : Action (List Value)) :=
          .andThen .get fun _ => single_follows (listTable_follows _).lift _
        split
        · exact listed _ _
        · exact (criteria_follows _).andThen fun _ => listed _ _
        · exact .failThen _ _

theorem registerAll_follows (functions : List ScriptFunction) : Follows R (register functions) := by
  induction functions with
  | nil => exact .pure ()
  | cons f rest ih =>
      exact (Vm.newNative_follows _).andThen fun native => .andThen .get fun m =>
        (Vm.rawSet_follows _ _ _).andThen fun _ => ih

end Script

/-- A runtime follows from one in which there is nothing yet. -/
theorem Machine.create_follows (heap : Nat) (config : Config)
    : R (bare heap config) (create heap config) := by
  have follows : R _ _ := (Script.registerAll_follows ScriptFunction.all).outcome (bare heap config)
  unfold create
  generalize Script.register ScriptFunction.all (bare heap config) = outcome at follows ⊢
  cases outcome <;> exact follows

-----------------------------------------------------------------------------------------
-- Requests
-----------------------------------------------------------------------------------------

/-- Requests that copy closures. -/
def Request.copies : Request → Bool
  | .clone _ | .hook .. | .hookMetamethod .. => true
  | _ => false

/-- Requests that change connections. -/
def Request.connects : Request → Bool
  | .connect .. | .setEnabled .. | .disconnect _ => true
  | _ => false

/-- Every request but those that enter the machine anew, collect or copy a closure. -/
theorem serve_follows
    (made : ∀ prototype environment, Follows R (Vm.instantiate prototype environment))
    (invoke : Invoke) {request : Request} (aside : request.enters = false)
    (uncollected : request ≠ .collect) (uncopied : request.copies = false)
    (wires : request.connects = true → Machine.Wires R)
    : Follows R (serve invoke request) := by
  have looks {α : Type} (view : Machine → α) : Follows R (do return view (← get) : Action α) :=
    .andThen .get fun _ => .pure _
  cases request with
  | call | index | assign | readShared | fire | fireSignal => simp [Request.enters] at aside
  | connect => exact Script.register_follows (wires rfl) _ _
  | setEnabled => exact (Script.setEnabled_follows (wires rfl) _ _).lift
  | disconnect => exact (Script.disconnect_follows (wires rfl) _).lift
  | clone | hook | hookMetamethod => cases uncopied
  | newTable => exact Vm.newTable_follows.lift
  | assemble => exact (Vm.addPrototype_follows _).lift
  | instantiate => exact (made _ _).lift
  | load => exact Environment.load_follows _ _ (made _)
  | contents => exact .lift (.looks (Vm.table_looks _))
  | rawGet => exact .lift (.looks (Vm.rawGet_looks _ _))
  | rawSet => exact (Vm.rawSet_follows _ _ _).lift
  | metatable => exact .lift (.looks (Vm.metatable_looks _))
  | setMetatable => exact (Vm.setMetatable_follows _ _).lift
  | isReadOnly => exact .andThen (.lift (.looks (Vm.table_looks _))) fun _ => .pure _
  | setReadOnly => exact (Vm.setReadOnly_follows _ _).lift
  | closureEnvironment | upvalueCount =>
      exact .andThen (.lift (.looks (Vm.closure_looks _))) fun _ => .pure _
  | functionName => exact .lift (.looks (Vm.functionName_looks _))
  | redirect => exact (Vm.setRedirect_follows _ _).lift
  | checkOwner => exact .lift (.looks (Vm.checkOwner_looks _))
  | collect => exact absurd rfl uncollected
  | retain => exact (Vm.retain_follows _).lift
  | release => exact (Vm.release_follows _).lift
  | hold => exact (Vm.hold_follows _).lift
  | letGo => exact .modify (Lenient.letGo · _)
  | environment => exact Environment.find_follows _
  | unhook => exact Hook.restore_follows _
  | unhookMetamethod => exact Hook.restoreMetamethod_follows _ _
  | isRuntimeFunction => exact Reflection.isRuntimeFunction_follows _
  | constant => exact Reflection.constant_follows _ _
  | setConstant => exact Reflection.setConstant_follows _ _ _
  | constants | info | digest => exact Reflection.inspect_follows _ _
  | nested => exact Reflection.nested_follows made _ _ _ _
  | wrap => exact Reflection.wrap_follows _
  | level => exact Clearance.level_follows.lift
  | setLevel => exact Clearance.setLevel_follows _
  | isTrusted => exact Clearance.isTrusted_follows.lift
  | require => exact Clearance.require_follows _ _
  | report => exact .modify fun _ => Lenient.aside rfl rfl rfl rfl rfl
  | stats | objects | resolve | retained | guardCount | environmentCount | isHooked | isOwned
  | hookCount | connectionsOf | connection | connectionCount | contextCount | filter | isAlive =>
      exact looks _

end HookMachine
