import HookMachine.Proofs.Bounds.Surface
import HookMachine.Proofs.Deeds.Registries

/-!
Reflection, the functions of scripts and the requests of a host by the judgement on scopes. What each
of them may do in a machine is told by its arguments, and for the gated functions by the level that the
calling context holds.
-/

namespace HookMachine

open Run (Looks)
open Scope (Keeps Kept)

/-- What a function of scripts may do when it is called with these arguments. -/
inductive ScriptFunction.Grants (m : Machine) (arguments : List Value)
    : ScriptFunction → Deed → Prop
  | shared : Grants m arguments .getGlobalEnv .record
  | script (some : Script.argument arguments 0 ≠ .nil) : Grants m arguments .getScriptEnv .record
  | module (some : Script.argument arguments 0 ≠ .nil) : Grants m arguments .getModuleEnv .record
  | setProtected {ref} (privileged : m.Privileged)
    (target : Script.argument arguments 0 = .table ref)
    : Grants m arguments .setProtected (.shield ref (Script.argument arguments 1).isTruthy)
  | makeReadonly {ref} (privileged : m.Privileged)
    (target : Script.argument arguments 0 = .table ref)
    : Grants m arguments .makeReadonly (.shield ref true)
  | makeWriteable {ref} (privileged : m.Privileged)
    (target : Script.argument arguments 0 = .table ref)
    : Grants m arguments .makeWriteable (.shield ref false)
  | setRawMetatable {ref} (privileged : m.Privileged)
    (target : Script.argument arguments 0 = .table ref)
    : Grants m arguments .setRawMetatable (.attach ref)
  | installHook (privileged : m.Privileged) : Grants m arguments .installHook .hook
  | installMetamethodHook (privileged : m.Privileged)
    : Grants m arguments .installMetamethodHook .hook
  | hookSlot {mt name former after} (privileged : m.Privileged)
    (given : Script.argument arguments 1 = .string name)
    (found : Vm.metatable (Script.argument arguments 0) m = .ok (some mt) m)
    (hooked : Hook.installMetamethod (Script.argument arguments 0) name (Script.argument arguments 2)
      m.observed = .ok former after)
    : Grants m arguments .installMetamethodHook (.patch mt)
  | restoreSlot {mt name after} (given : Script.argument arguments 1 = .string name)
    (found : Vm.metatable (Script.argument arguments 0) m = .ok (some mt) m)
    (restored : Hook.restoreMetamethod (Script.argument arguments 0) name m = .ok true after)
    : Grants m arguments .restoreMetamethodHook (.patch mt)
  | setConstant (privileged : m.Privileged) : Grants m arguments .setConstant .program

/-- What a request may do. -/
inductive Request.Grants (m : Machine) : Request → Deed → Prop
  | environment {owner} : Grants m (.environment owner) .record
  | load {owner prototype} : Grants m (.load owner prototype) .record
  | readShared {name} : Grants m (.readShared name) .record
  | rawSet {ref key value} : Grants m (.rawSet ref key value) (.write ref)
  | assign {object key value ref} (delivers : m.Delivers key ref Vm.maxChain object)
    : Grants m (.assign object key value) (.write ref)
  | setReadOnly {ref on} : Grants m (.setReadOnly ref on) (.shield ref on)
  | setMetatable {ref metatable} : Grants m (.setMetatable ref metatable) (.attach ref)
  | hook {target replacement} : Grants m (.hook target replacement) .hook
  | hookMetamethod {object name replacement}
    : Grants m (.hookMetamethod object name replacement) .hook
  | hookSlot {object name replacement mt former after}
    (found : Vm.metatable object m = .ok (some mt) m)
    (hooked : Hook.installMetamethod object name replacement m = .ok former after)
    : Grants m (.hookMetamethod object name replacement) (.patch mt)
  | restoreSlot {object name mt after} (found : Vm.metatable object m = .ok (some mt) m)
    (restored : Hook.restoreMetamethod object name m = .ok true after)
    : Grants m (.unhookMetamethod object name) (.patch mt)
  | assemble {prototype} : Grants m (.assemble prototype) .program
  | setConstant {f index value} : Grants m (.setConstant f index value) .program

variable {s : Scope} {m : Machine}

theorem Scope.precedes_origin (s : Scope) : s.Precedes s.origin :=
  fun _ there => there

-----------------------------------------------------------------------------------------
-- Reflection
-----------------------------------------------------------------------------------------

namespace Reflection

theorem prototypeOf_keeps (f : Value) : s.Keeps (prototypeOf f) := by
  unfold prototypeOf
  split
  · exact (Vm.closure_looks _).keeps.lift.andThen fun _ => .pure trivial
  · exact .pure trivial
  · exact Action.refuse_keeps _

theorem inspect_keeps {α : Type} (f : Value) (view : Prototype → α)
    : s.Keeps (inspect f view) := by
  refine (prototypeOf_keeps f).andThen fun found => ?_
  split
  · exact .pure trivial
  · exact (Vm.prototype_looks _).keeps.lift.andThen fun _ => .pure trivial

theorem constant_keeps (f : Value) (position : Int) : s.Keeps (constant f position) :=
  (inspect_keeps f _).andThen fun _ => .pure trivial

theorem setConstant_keeps (allowed : s.allows .program) (f : Value) (position : Int)
    (value : Value)
    : s.Keeps (setConstant f position value) := by
  refine (Vm.checkOwner_looks _).keeps.lift.andThen fun _ => ?_
  refine (prototypeOf_keeps f).andThen fun found => ?_
  split
  · exact .pure trivial
  · refine (Vm.prototype_looks _).keeps.lift.andThen fun p => ?_
    split
    · exact .pure trivial
    · exact .andThen (.modify fun _ => .programmed allowed) fun _ => .pure trivial

theorem nested_keeps (caller : Option ClosureRef) (f : Value) (position : Int) (activate : Bool)
    : s.Keeps (nested caller f position activate) := by
  unfold nested
  split
  · refine (Vm.closure_looks _).keeps.lift.andThen fun c => ?_
    refine (Vm.prototype_looks _).keeps.lift.andThen fun p => ?_
    dsimp only
    split
    · exact .pure trivial
    · split
      · refine (Vm.closure_looks _).keeps.lift.andThen fun c => ?_
        exact (Vm.instantiate_keeps _ _).lift.andThen fun _ => .pure trivial
      · exact (Vm.prototype_looks _).keeps.lift.andThen fun _ => .pure trivial
  · exact (prototypeOf_keeps _).andThen fun _ => .pure trivial

theorem wrap_keeps (f : Value) : s.Keeps (wrap f) := by
  unfold wrap
  split
  · exact .pure trivial
  · refine (Vm.functionName_looks _).keeps.lift.andThen fun name => ?_
    exact (Vm.createNative_keeps _).lift.andThen fun _ => .pure trivial
  · exact Action.refuse_keeps _

theorem isRuntimeFunction_keeps (f : Value) : s.Keeps (isRuntimeFunction f) := by
  unfold isRuntimeFunction
  split
  · exact .pure trivial
  · exact .andThen .get fun _ => .pure trivial
  · exact Action.refuse_keeps _

end Reflection

-----------------------------------------------------------------------------------------
-- Arguments and results of scripts
-----------------------------------------------------------------------------------------

namespace Script

theorem integer_looks (arguments : List Value) (i : Nat) (what : String)
    : Looks (integer arguments i what) := by
  unfold integer
  dsimp only
  split
  · split
    · exact .pure _
    · exact .fail _
  · exact .fail _

theorem string_keeps (arguments : List Value) (i : Nat) (what : String)
    : s.Keeps (string arguments i what) := by
  unfold string
  split
  · exact .pure trivial
  · exact Action.refuse_keeps _

/-- What takes an argument first is done in the same machine. -/
theorem requiredThen_kept {post : List Value → Machine → Prop} {arguments : List Value} {i : Nat}
    {what : String} {f : Value → Action (List Value)}
    (rest : ∀ value, argument arguments i ≠ .nil → s.Kept m post (f value m))
    : s.Kept m post ((required arguments i what >>= f) m) := by
  unfold required
  split
  · exact .refl
  · rename_i some
    exact rest _ some

theorem stringThen_kept {post : List Value → Machine → Prop} {arguments : List Value} {i : Nat}
    {what : String} {f : String → Action (List Value)}
    (rest : ∀ name, argument arguments i = .string name → s.Kept m post (f name m))
    : s.Kept m post ((string arguments i what >>= f) m) := by
  unfold string
  split
  · rename_i name given
    exact rest name given
  · exact .refl

theorem table_keeps (arguments : List Value) (i : Nat) (operation : String)
    : s.Keeps (table arguments i operation) fun ref => argument arguments i = .table ref := by
  unfold table
  split
  · rename_i ref found
    exact .pure found
  · exact Action.refuse_keeps _

theorem fillList_keeps {ref : TableRef} (fresh : s.Fresh ref) (start : Nat) (values : List Value)
    : s.Keeps (fillList ref start values) := by
  induction values generalizing start with
  | nil => exact .pure trivial
  | cons value rest ih => exact (Vm.rawSet_keeps _ _ (.inl fresh)).andThen fun _ => ih _

theorem listTable_keeps (values : List Value) : s.Keeps (listTable values) :=
  Vm.newTable_keeps.bind fun _ fresh => (fillList_keeps fresh _ _).andThen fun _ => .pure trivial

theorem setFields_keeps {ref : TableRef} (fresh : s.Fresh ref) (fields : List (String × Value))
    : s.Keeps (setFields ref fields) := by
  induction fields with
  | nil => exact .pure trivial
  | cons field rest ih => exact (Vm.rawSet_keeps _ _ (.inl fresh)).andThen fun _ => ih

theorem infoTable_keeps (info : PrototypeInfo) : s.Keeps (infoTable info) :=
  Vm.newTable_keeps.bind fun _ fresh => (setFields_keeps fresh _).andThen fun _ => .pure trivial

theorem setMethods_keeps {ref : TableRef} (fresh : s.Fresh ref) (index : Nat)
    (methods : List ConnectionMethod)
    : s.Keeps (setMethods ref index methods) := by
  induction methods with
  | nil => exact .pure trivial
  | cons m rest ih =>
      refine (Vm.newNative_keeps _).andThen fun _ => ?_
      exact (Vm.rawSet_keeps _ _ (.inl fresh)).andThen fun _ => ih

theorem connectionTable_keeps (index : Nat) : s.Keeps (connectionTable index) :=
  Vm.newTable_keeps.bind fun _ fresh => .andThen .get fun _ =>
    (setFields_keeps fresh _).andThen fun _ => (setMethods_keeps fresh _ _).andThen fun _ =>
      .pure trivial

theorem countCriterion_keeps (ref : TableRef) (name : String)
    : s.Keeps (countCriterion ref name) := by
  refine (Vm.rawGet_looks _ _).keeps.lift.andThen fun value => ?_
  dsimp only
  split
  · exact .pure trivial
  · split
    · split
      · exact .pure trivial
      · exact Action.refuse_keeps _
    · exact Action.refuse_keeps _
  · exact Action.refuse_keeps _

theorem listCriterion_keeps (ref : TableRef) (name : String)
    : s.Keeps (listCriterion ref name) := by
  refine (Vm.rawGet_looks _ _).keeps.lift.andThen fun value => ?_
  split
  · exact .pure trivial
  · exact (Vm.table_looks _).keeps.lift.andThen fun _ => .pure trivial
  · exact Action.refuse_keeps _

theorem criteria_keeps (ref : TableRef) : s.Keeps (criteria ref) :=
  (Vm.rawGet_looks _ _).keeps.lift.andThen fun _ => (countCriterion_keeps _ _).andThen fun _ =>
    (countCriterion_keeps _ _).andThen fun _ => (Vm.rawGet_looks _ _).keeps.lift.andThen fun _ =>
      (listCriterion_keeps _ _).andThen fun _ => (listCriterion_keeps _ _).andThen fun _ =>
        (Vm.rawGet_looks _ _).keeps.lift.andThen fun _ => .pure trivial

-----------------------------------------------------------------------------------------
-- Functions of scripts
-----------------------------------------------------------------------------------------

/-- A result that an operation supplies alone. -/
theorem single_keeps {α : Type} {post : α → Prop} {x : Action α} (keeps : s.Keeps x post)
    (view : α → Value)
    : s.Keeps (do return [view (← x)] : Action (List Value)) :=
  keeps.andThen fun _ => .pure trivial

theorem single_kept {α : Type} {x : Action α} (kept : s.Kept m (fun _ _ => True) (x m))
    (view : α → Value)
    : s.Kept m (fun _ _ => True) ((do return [view (← x)] : Action (List Value)) m) :=
  kept.bind fun _ _ _ _ => ⟨.refl, trivial⟩

/-- Every function of scripts but those that fire a signal or set a level. -/
theorem run_kept (nested : Nested) (caller : Option ClosureRef) {f : ScriptFunction}
    (arguments : List Value) (allowed : ∀ deed, f.Grants s.origin arguments deed → s.allows deed)
    (quiet : f ≠ .fireSignal) (aside : f ≠ .setIdentity)
    : s.Kept s.origin (fun _ _ => True) (run nested caller f arguments s.origin) := by
  have precedes := s.precedes_origin
  have after : s.Precedes s.origin.observed := precedes
  have of {x : Action (List Value)} (keeps : s.Keeps x)
      : s.Kept s.origin (fun _ _ => True) (x s.origin) :=
    keeps.outcome s.origin precedes
  have gated {x : Action (List Value)} (operation : String)
      (keeps : s.origin.Privileged → s.Keeps x)
      : s.Kept s.origin (fun _ _ => True)
          ((do Clearance.requirePrivilege operation; x : Action (List Value)) s.origin) :=
    Clearance.privileged_kept operation fun privileged =>
      (keeps privileged).outcome _ after
  have known (other : EnvironmentOwner)
      : s.origin.environments.find? other = s.origin.environments.find? other := rfl
  have found (owner : EnvironmentOwner) (record : s.allows .record) :=
    Environment.find_kept record precedes known owner
  have protecting (on : Bool) (operation : String)
      (shields : ∀ ref, argument arguments 0 = .table ref → s.allows (.shield ref on))
      : s.Keeps (do
          let ref ← table arguments 0 operation
          Vm.setReadOnly ref on
          return [.table ref] : Action (List Value)) :=
    (table_keeps _ _ _).bind fun ref target =>
      (Vm.setReadOnly_keeps (.inr (shields ref target))).lift.andThen fun _ => .pure trivial
  cases f with
  | getGlobalEnv => exact single_kept (found _ (allowed _ .shared)) _
  | getRootEnv => exact of (single_keeps .get _)
  | getScriptEnv =>
      exact requiredThen_kept fun _ some => single_kept (found _ (allowed _ (.script some))) _
  | getModuleEnv =>
      exact requiredThen_kept fun _ some => single_kept (found _ (allowed _ (.module some))) _
  | installHook =>
      exact gated _ fun privileged =>
        single_keeps (Hook.install_keeps (allowed _ (.installHook privileged)) _ _) _
  | restoreHook => exact of (single_keeps (Hook.restore_keeps _) _)
  | installMetamethodHook =>
      refine Clearance.privileged_kept _ fun privileged => stringThen_kept fun name given => ?_
      have hook := allowed _ (.installMetamethodHook privileged)
      refine single_kept (Hook.installMetamethod_kept after hook fun mt former last found ended => ?_) id
      have tables : s.origin.heap.tables = s.origin.observed.heap.tables := rfl
      exact allowed _ (.hookSlot privileged given (Hook.metatable_of_tables tables found) ended)
  | restoreMetamethodHook =>
      refine stringThen_kept fun name given => ?_
      refine single_kept (Hook.restoreMetamethod_kept precedes fun mt last found ended => ?_) _
      exact allowed _ (.restoreSlot given found ended)
  | setProtected =>
      refine gated _ fun privileged => (table_keeps _ _ _).bind fun ref target => ?_
      have allowed := allowed _ (.setProtected privileged target)
      exact (Vm.setReadOnly_keeps (.inr allowed)).lift.andThen fun _ => .pure trivial
  | isProtected =>
      exact of ((table_keeps _ _ _).andThen fun _ => single_keeps (Vm.table_looks _).keeps.lift _)
  | makeReadonly =>
      exact gated _ fun privileged => protecting true _ fun ref target =>
        allowed _ (.makeReadonly privileged target)
  | makeWriteable =>
      exact gated _ fun privileged => protecting false _ fun ref target =>
        allowed _ (.makeWriteable privileged target)
  | getRawMetatable => exact of (single_keeps (Vm.metatable_looks _).keeps.lift _)
  | setRawMetatable =>
      refine gated _ fun privileged => (table_keeps _ _ _).bind fun ref target => ?_
      have allowed := allowed _ (.setRawMetatable privileged target)
      have attached (metatable : Option TableRef) :=
        (Vm.setMetatable_keeps (s := s) metatable (.inr allowed)).lift
      split
      · exact (attached _).andThen fun _ => .pure trivial
      · exact (attached _).andThen fun _ => .pure trivial
      · exact .failThen _ _
  | setIdentity => exact absurd rfl aside
  | getIdentity => exact of (single_keeps Clearance.level_keeps.lift _)
  | checkCaller => exact of (single_keeps Clearance.isTrusted_keeps.lift _)
  | getConstant =>
      exact of ((integer_looks _ _ _).keeps.andThen fun _ =>
        single_keeps (Reflection.constant_keeps _ _) _)
  | setConstant =>
      refine gated _ fun privileged => (integer_looks _ _ _).keeps.andThen fun _ => ?_
      exact single_keeps (Reflection.setConstant_keeps (allowed _ (.setConstant privileged)) _ _ _) _
  | getConstants =>
      refine of ((Reflection.inspect_keeps _ _).andThen fun constants => ?_)
      split
      · exact single_keeps (listTable_keeps _).lift _
      · exact .pure trivial
  | getNested =>
      refine of ((integer_looks _ _ _).keeps.andThen fun position => ?_)
      refine (Reflection.nested_keeps _ _ _ _).andThen fun nested => ?_
      split
      · exact .pure trivial
      · exact single_keeps (infoTable_keeps _).lift _
      · exact .pure trivial
  | getProtoInfo =>
      refine of ((Reflection.inspect_keeps _ _).andThen fun info => ?_)
      split
      · exact single_keeps (infoTable_keeps _).lift _
      · exact .pure trivial
  | functionHash => exact of (single_keeps (Reflection.inspect_keeps _ _) _)
  | cloneFunction => exact of (single_keeps (Vm.clone_keeps _).lift _)
  | isLclosure | isNative =>
      refine of ?_
      unfold run
      dsimp only
      split <;> exact .pure trivial
  | newNativeClosure => exact of (single_keeps (Reflection.wrap_keeps _) id)
  | isRuntimeClosure | checkClosure =>
      exact of (single_keeps (Reflection.isRuntimeFunction_keeps _) _)
  | getRegistry => exact of (.andThen .get fun _ => single_keeps (listTable_keeps _).lift _)
  | registerConnection =>
      refine of ((string_keeps _ _ _).andThen fun _ => ?_)
      refine (Connection.register_keeps _ _).andThen fun _ => ?_
      exact single_keeps (connectionTable_keeps _).lift _
  | getConnections =>
      refine of ((string_keeps _ _ _).andThen fun signal => .andThen .get fun m => ?_)
      refine (Keeps.mapM (fun index => ?_) _).andThen fun handles => ?_
      · exact (connectionTable_keeps index).lift.andThen fun _ => .pure trivial
      · exact single_keeps (listTable_keeps handles).lift _
  | fireSignal => exact absurd rfl quiet
  | enumerateObjects => exact of (.andThen .get fun _ => single_keeps (listTable_keeps _).lift _)
  | filterObjects =>
      refine of ((string_keeps _ _ _).andThen fun name => ?_)
      split
      · exact Action.refuse_keeps _
      · have listed (kind : ObjectKind) (criteria : Criteria)
            : s.Keeps (do
                return [.table (← listTable (Inspection.filter (← get) kind criteria))]
              : Action (List Value)) :=
          .andThen .get fun _ => single_keeps (listTable_keeps _).lift _
        split
        · exact listed _ _
        · exact (criteria_keeps _).andThen fun _ => listed _ _
        · exact .failThen _ _

/-- Every method of a connection handle but the one that fires it. -/
theorem runMethod_keeps (nested : Nested) {m : ConnectionMethod} (aside : m ≠ .fire) (index : Nat)
    (owner : TableRef) (arguments : List Value)
    : s.Keeps (runMethod nested m index owner arguments) := by
  cases m with
  | enable | disable => exact (Connection.setEnabled_keeps _ _).andThen fun _ => .pure trivial
  | fire => exact absurd rfl aside
  | disconnect => exact (Connection.disconnect_keeps _).andThen fun _ => .pure trivial

end Script

-----------------------------------------------------------------------------------------
-- Requests
-----------------------------------------------------------------------------------------

/-- Every request but those that enter the machine anew, collect or set a level. -/
theorem serve_kept (invoke : Invoke) {request : Request} (aside : request.enters = false)
    (allowed : ∀ deed, request.Grants s.origin deed → s.allows deed)
    (uncollected : request ≠ .collect) (unset : ∀ level, request ≠ .setLevel level)
    : s.Kept s.origin (fun _ _ => True) (serve invoke request s.origin) := by
  have precedes := s.precedes_origin
  have of {α : Type} {x : Action α} (keeps : s.Keeps x)
      : s.Kept s.origin (fun _ _ => True) (x s.origin) :=
    keeps.outcome s.origin precedes
  have looks {α : Type} (view : Machine → α)
      : s.Kept s.origin (fun _ _ => True) ((do return view (← get) : Action α) s.origin) :=
    of (.andThen .get fun _ => .pure trivial)
  have known (other : EnvironmentOwner)
      : s.origin.environments.find? other = s.origin.environments.find? other := rfl
  cases request with
  | call | index | assign | readShared | fire | fireSignal => simp [Request.enters] at aside
  | newTable => exact of (Vm.newTable_keeps.lift.mono fun _ _ => trivial)
  | assemble => exact of (Vm.addPrototype_keeps (allowed _ .assemble) _).lift
  | instantiate => exact of (Vm.instantiate_keeps _ _).lift
  | load => exact Environment.load_kept (allowed _ .load) precedes known _ _
  | contents => exact of (Vm.table_looks _).keeps.lift
  | rawGet => exact of (Vm.rawGet_looks _ _).keeps.lift
  | rawSet => exact of (Vm.rawSet_keeps _ _ (.inr (allowed _ .rawSet))).lift
  | metatable => exact of (Vm.metatable_looks _).keeps.lift
  | setMetatable => exact of (Vm.setMetatable_keeps _ (.inr (allowed _ .setMetatable))).lift
  | isReadOnly => exact of ((Vm.table_looks _).keeps.lift.andThen fun _ => .pure trivial)
  | setReadOnly => exact of (Vm.setReadOnly_keeps (.inr (allowed _ .setReadOnly))).lift
  | closureEnvironment | upvalueCount =>
      exact of ((Vm.closure_looks _).keeps.lift.andThen fun _ => .pure trivial)
  | functionName => exact of (Vm.functionName_looks _).keeps.lift
  | clone => exact of (Vm.clone_keeps _).lift
  | redirect => exact of (Vm.setRedirect_keeps _ _).lift
  | checkOwner => exact of (Vm.checkOwner_looks _).keeps.lift
  | collect => exact absurd rfl uncollected
  | retain => exact of (Vm.retain_keeps _).lift
  | release => exact of (Vm.release_keeps _).lift
  | hold => exact of ((Vm.hold_keeps _).lift.mono fun _ _ => trivial)
  | letGo => exact of (Vm.beside_keeps (·.beside_letGo _))
  | environment => exact Environment.find_kept (allowed _ .environment) precedes known _
  | hook => exact of (Hook.install_keeps (allowed _ .hook) _ _)
  | unhook => exact of (Hook.restore_keeps _)
  | hookMetamethod =>
      exact Hook.installMetamethod_kept precedes (allowed _ .hookMetamethod)
        fun mt former after found ended => allowed _ (.hookSlot found ended)
  | unhookMetamethod =>
      exact Hook.restoreMetamethod_kept precedes
        fun mt after found ended => allowed _ (.restoreSlot found ended)
  | isRuntimeFunction => exact of (Reflection.isRuntimeFunction_keeps _)
  | constant => exact of (Reflection.constant_keeps _ _)
  | setConstant => exact of (Reflection.setConstant_keeps (allowed _ .setConstant) _ _ _)
  | constants | info | digest => exact of (Reflection.inspect_keeps _ _)
  | nested => exact of (Reflection.nested_keeps _ _ _ _)
  | wrap => exact of (Reflection.wrap_keeps _)
  | connect => exact of (Connection.register_keeps _ _)
  | setEnabled => exact of (Connection.setEnabled_keeps _ _).lift
  | disconnect => exact of (Connection.disconnect_keeps _).lift
  | level => exact of Clearance.level_keeps.lift
  | setLevel level => exact absurd rfl (unset level)
  | isTrusted => exact of Clearance.isTrusted_keeps.lift
  | require => exact of (Clearance.require_keeps _ _)
  | report =>
      exact of (Vm.beside_keeps fun _ => ⟨rfl, rfl, rfl, rfl, rfl, rfl, rfl, rfl, rfl, rfl, .refl _⟩)
  | stats | objects | resolve | retained | guardCount | environmentCount | isHooked | isOwned
  | hookCount | connectionsOf | connection | connectionCount | contextCount | filter | isAlive =>
      exact looks _

end HookMachine
