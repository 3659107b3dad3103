import HookMachine.Proofs.Likeness.Interception
import HookMachine.Proofs.Likeness.Whole
import HookMachine.Script.Surface

/-!
Looking into functions, capability levels and the functions that scripts find in the root globals,
by the judgement of agreement. Only those that list the objects of a heap ask for more than like
arguments: they agree where everything is tied.
-/

namespace HookMachine

namespace Tie.Prototypes

variable {t : Tie} {p q : Prototype} (alike : t.Prototypes p q)

include alike

theorem size : p.constants.size = q.constants.size := by
  simpa using alike.constants.length_eq

/-- Like prototypes have like constants at every position. -/
theorem constant (position : Int)
    : Option.Rel t.Values
        ((Reflection.slot? position p.constants.size).map (p.constants.getD · .nil))
        ((Reflection.slot? position q.constants.size).map (q.constants.getD · .nil)) := by
  rw [alike.size]
  cases Reflection.slot? position q.constants.size with
  | none => exact .none
  | some k =>
      refine .some ?_
      have held := Lists.getD alike.constants k
      simpa [Array.getD_eq_getD_getElem?, List.getD_eq_getElem?_getD] using held

theorem info : p.info = q.info := by
  simp only [Prototype.info, alike.name, alike.parameters, alike.variadic, alike.size,
    alike.nested, alike.upvalues, alike.line]

theorem behaviourBytes : Reflection.behaviourBytes p = Reflection.behaviourBytes q := by
  simp only [Reflection.behaviourBytes, alike.source, alike.line, alike.upvalues,
    alike.parameters, alike.variadic, alike.code]

end Tie.Prototypes

/-- Where everything is tied, like machines hold the same objects by all criteria. -/
theorem Tie.Machines.filter {t : Tie} {m n : Machine} (alike : t.Machines m n) (whole : t.Whole)
    (kind : ObjectKind) (criteria : Criteria)
    : Inspection.filter m kind criteria = Inspection.filter n kind criteria := by
  have closures (c : Closure)
      : Inspection.closureMatches m criteria c = Inspection.closureMatches n criteria c := by
    have same := alike.prototypes (whole.prototype c.prototype)
    simp only [Inspection.closureMatches, same.name, same.size]
  simp only [Inspection.filter, alike.heap whole, closures]

namespace Likeness

variable {ι : Type} {L : Likeness ι} {i : ι} {a b : TableRef} {v w : Value} {xs ys : List Value}

-----------------------------------------------------------------------------------------
-- Looking into functions
-----------------------------------------------------------------------------------------

section

open Reflection

variable (lawful : L.Lawful)

include lawful

theorem prototypeOf_agree (f : L.tie.Values v w)
    : L.Agree i (prototypeOf v) (prototypeOf w) (Option.Rel L.tie.PrototypeRefs) := by
  cases f with
  | closure tied =>
      exact (closure_agree lawful tied).lift.bind fun _ _ alike =>
        .pure (.some ⟨alike.prototype, alike.known⟩)
  | native => exact .pure .none
  | nil | boolean | number | string | table => exact refuse_agree _

theorem inspect_agree {α β : Type} {related : α → β → Prop} (f : L.tie.Values v w)
    {view : Prototype → α} {view' : Prototype → β}
    (views : ∀ p q, L.tie.Prototypes p q → related (view p) (view' q))
    : L.Agree i (inspect v view) (inspect w view') (Option.Rel related) := by
  refine (prototypeOf_agree lawful f).bind fun p q found => ?_
  cases found with
  | none => exact .pure .none
  | some shared =>
      cases shared.same
      exact (prototype_agree lawful shared.known).lift.bind fun _ _ alike =>
        .pure (.some (views _ _ alike))

theorem constants_agree (f : L.tie.Values v w)
    : L.Agree i (constants v) (constants w) (Option.Rel L.tie.Lists) :=
  inspect_agree lawful f fun _ _ alike => alike.constants

theorem constantAt_agree (f : L.tie.Values v w) (position : Int)
    : L.Agree i (constant v position) (constant w position) (Option.Rel L.tie.Values) := by
  refine (inspect_agree lawful f fun _ _ alike => alike.constant position).bind fun o p found => ?_
  cases found with
  | none => exact .pure .none
  | some held => exact .pure held

theorem setConstant_agree {x y : Value} (f : L.tie.Values v w) (position : Int)
    (value : L.tie.Values x y)
    : L.Agree i (setConstant v position x) (setConstant w position y) Eq := by
  refine (checkOwner_agree lawful value).lift.andThen fun _ _ => ?_
  refine (prototypeOf_agree lawful f).bind fun p q found => ?_
  cases found with
  | none => exact .pure rfl
  | @some p q shared =>
      cases shared.same
      refine (prototype_agree lawful shared.known).lift.bind fun _ _ alike => ?_
      rw [alike.size]
      split
      · exact .pure rfl
      · exact .andThen (.modify fun alike => lawful.setConstant _ alike shared.known value)
          fun _ _ => .pure rfl

theorem info_agree (f : L.tie.Values v w) : L.Agree i (info v) (info w) (Option.Rel Eq) :=
  inspect_agree lawful f fun _ _ alike => alike.info

theorem digest_agree (f : L.tie.Values v w) : L.Agree i (digest v) (digest w) (Option.Rel Eq) := by
  refine inspect_agree lawful f fun _ _ alike => ?_
  rw [alike.behaviourBytes]

theorem nested_agree {c d : Option ClosureRef} (caller : Option.Rel L.tie.ClosureRefs c d)
    (f : L.tie.Values v w) (position : Int) (activate : Bool)
    : L.Agree i (nested c v position activate) (nested d w position activate)
        (Option.Rel L.tie.Nesteds) := by
  have plain
      : L.Agree i (prototypeOf v >>= fun _ => pure none) (prototypeOf w >>= fun _ => pure none)
          (Option.Rel L.tie.Nesteds) :=
    (prototypeOf_agree lawful f).andThen fun _ _ => .pure .none
  cases f with
  | nil | boolean | number | string | table | native => exact plain
  | @closure x y tied =>
      refine (closure_agree lawful tied).lift.bind fun _ _ shared => ?_
      rw [← shared.prototype]
      refine (prototype_agree lawful shared.known).lift.bind fun p q alike => ?_
      rw [← alike.nested]
      split
      · exact .pure .none
      · rename_i child found
        obtain ⟨k, -, held⟩ := Option.bind_eq_some_iff.mp found
        have known := alike.known child (Array.mem_of_getElem? held)
        split
        · have home : L.tie.ClosureRefs (c.getD x) (d.getD y) := by
            cases caller with
            | none => exact tied
            | some other => exact other
          refine (closure_agree lawful home).lift.bind fun _ _ owner => ?_
          exact (instantiate_agree lawful known (.some owner.environment)).lift.bind
            fun _ _ made => .pure (.some (.closure made))
        · refine (prototype_agree lawful known).lift.bind fun p q alike => ?_
          rw [alike.info]
          exact .pure (.some (.description _))

theorem wrap_agree (f : L.tie.Values v w)
    : L.Agree i (wrap v) (wrap w) L.tie.Values := by
  cases f with
  | native tied => exact .pure (.native tied)
  | nil | boolean | number | string | table => exact refuse_agree _
  | closure tied =>
      refine (functionName_agree lawful (.closure tied)).lift.bind fun name _ same => ?_
      subst same
      refine (createNative_agree lawful ?_).lift.bind fun _ _ made => .pure (.native made)
      exact ⟨rfl, .wrapper (.closure tied), .cons (.closure tied) .nil, rfl⟩

theorem isRuntimeFunction_agree (f : L.tie.Values v w)
    : L.Agree i (isRuntimeFunction v) (isRuntimeFunction w) Eq := by
  cases f with
  | native => exact .pure rfl
  | closure tied =>
      exact .bind .get fun _ _ alike =>
        .pure ((lawful.reads alike).hooks.owns (.closure tied))
  | nil | boolean | number | string | table => exact refuse_agree _

end

-----------------------------------------------------------------------------------------
-- Capability levels
-----------------------------------------------------------------------------------------

section

open Clearance

variable (lawful : L.Lawful)

include lawful

theorem level_agree : L.Agree i level level Eq := by
  refine .modifyGet fun alike => ?_
  have shown := lawful.reads alike
  refine ⟨lawful.setIdentities (fun context registry => registry.observe context) alike, ?_⟩
  rw [shown.context, shown.identities]

theorem setLevel_agree (level : Int) : L.Agree i (setLevel level) (setLevel level) Eq := by
  unfold setLevel
  split
  · exact .failThen _ _ _
  · exact .modify fun alike =>
      lawful.setIdentities (fun context registry => registry.record context level.toNat) alike

theorem isTrusted_agree : L.Agree i isTrusted isTrusted Eq :=
  (level_agree lawful).bind fun _ _ same => .pure (same ▸ rfl)

theorem require_agree (operation : String) (required : Nat)
    : L.Agree i (require operation required) (require operation required) Eq := by
  refine (level_agree lawful).lift.bind fun actual _ same => ?_
  subst same
  split
  · exact refuse_agree _
  · exact .pure rfl

theorem requirePrivilege_agree (operation : String)
    : L.Agree i (requirePrivilege operation) (requirePrivilege operation) Eq := by
  refine .bind .get fun m n alike => ?_
  rw [(lawful.reads alike).privilegedLevel]
  exact require_agree lawful _ _

end

-----------------------------------------------------------------------------------------
-- Arguments
-----------------------------------------------------------------------------------------

section

open Script

variable (arguments : L.tie.Lists xs ys)

include arguments

theorem required_agree (position : Nat) (what : String)
    : L.Agree i (required xs position what) (required ys position what) L.tie.Values := by
  have held := arguments.getD position
  unfold required argument
  generalize xs.getD position .nil = v at *
  generalize ys.getD position .nil = w at *
  cases held with
  | nil => exact refuse_agree _
  | boolean b => exact .pure (.boolean b)
  | number x => exact .pure (.number x)
  | string s => exact .pure (.string s)
  | table tied => exact .pure (.table tied)
  | closure tied => exact .pure (.closure tied)
  | native tied => exact .pure (.native tied)

theorem integer_agree (position : Nat) (what : String)
    : L.Agree i (integer xs position what) (integer ys position what) Eq := by
  have held := arguments.getD position
  unfold integer argument
  dsimp only
  rw [held.kind]
  generalize xs.getD position .nil = v at *
  generalize ys.getD position .nil = w at *
  cases held with
  | number x =>
      dsimp only
      split
      · exact .pure rfl
      · exact refuse_agree _
  | nil | boolean | string | table | closure | native => exact refuse_agree _

theorem string_agree (position : Nat) (what : String)
    : L.Agree i (string xs position what) (string ys position what) Eq := by
  have held := arguments.getD position
  unfold string argument
  generalize xs.getD position .nil = v at *
  generalize ys.getD position .nil = w at *
  cases held with
  | string s => exact .pure rfl
  | nil | boolean | number | table | closure | native => exact refuse_agree _

theorem tableArgument_agree (position : Nat) (operation : String)
    : L.Agree i (Script.table xs position operation) (Script.table ys position operation)
        L.tie.TableRefs := by
  have held := arguments.getD position
  unfold Script.table argument
  generalize xs.getD position .nil = v at *
  generalize ys.getD position .nil = w at *
  cases held with
  | table tied => exact .pure tied
  | nil | boolean | number | string | closure | native => exact refuse_agree _

end

-----------------------------------------------------------------------------------------
-- Tables as results
-----------------------------------------------------------------------------------------

section

open Script

variable (lawful : L.Lawful)

include lawful

theorem fillList_agree (tied : L.tie.TableRefs a b) (values : L.tie.Lists xs ys) (start : Nat)
    : L.Agree i (fillList a start xs) (fillList b start ys) Eq := by
  induction values generalizing start with
  | nil => exact .pure rfl
  | cons value _ ih =>
      exact (rawSet_agree lawful tied (.ofNat start) value).andThen fun _ _ => ih (start + 1)

theorem listTable_agree (values : L.tie.Lists xs ys)
    : L.Agree i (listTable xs) (listTable ys) L.tie.TableRefs :=
  (newTable_agree lawful).bind fun _ _ tied =>
    (fillList_agree lawful tied values 1).andThen fun _ _ => .pure tied

/-- A list of values in a table is a result. -/
theorem listed_agree (values : L.tie.Lists xs ys)
    : L.Agree i (do return [.table (← listTable xs)] : Action (List Value))
        (do return [.table (← listTable ys)]) L.tie.Lists :=
  (listTable_agree lawful values).lift.bind fun _ _ tied => .pure (.cons (.table tied) .nil)

theorem setFields_agree (tied : L.tie.TableRefs a b) {fields others : List (String × Value)}
    (alike : fields.Forall₂ (fun e f => e.1 = f.1 ∧ L.tie.Values e.2 f.2) others)
    : L.Agree i (setFields a fields) (setFields b others) Eq := by
  induction alike with
  | nil => exact .pure rfl
  | @cons field other _ _ head _ ih =>
      obtain ⟨name, value⟩ := field
      obtain ⟨_, value'⟩ := other
      obtain ⟨rfl, alike⟩ := head
      exact (rawSet_agree lawful tied (.string name) alike).andThen fun _ _ => ih

/-- Fields that name no object are like themselves. -/
theorem setPlainFields_agree (tied : L.tie.TableRefs a b) (fields : List (String × Value))
    (plain : ∀ field ∈ fields, field.2.isReference = false)
    : L.Agree i (setFields a fields) (setFields b fields) Eq := by
  refine setFields_agree lawful tied (List.forall₂_same.mpr fun field member => ⟨rfl, ?_⟩)
  have plain := plain field member
  generalize field.2 = value at *
  cases value with
  | nil => exact .nil
  | boolean b => exact .boolean b
  | number x => exact .number x
  | string s => exact .string s
  | table | closure | native => simp [Value.isReference, Value.handle?] at plain

theorem infoTable_agree (info : PrototypeInfo)
    : L.Agree i (infoTable info) (infoTable info) L.tie.TableRefs := by
  refine (newTable_agree lawful).bind fun _ _ tied => ?_
  refine (setPlainFields_agree lawful tied _ ?_).andThen fun _ _ => .pure tied
  cases info.name <;>
    simp [Value.isReference, Value.handle?, Value.orNil, Value.ofNat]

theorem described_agree (info : PrototypeInfo)
    : L.Agree i (do return [.table (← infoTable info)] : Action (List Value))
        (do return [.table (← infoTable info)]) L.tie.Lists :=
  (infoTable_agree lawful info).lift.bind fun _ _ tied => .pure (.cons (.table tied) .nil)

theorem setMethods_agree (tied : L.tie.TableRefs a b) (index : Nat)
    (methods : List ConnectionMethod)
    : L.Agree i (setMethods a index methods) (setMethods b index methods) Eq := by
  induction methods with
  | nil => exact .pure rfl
  | cons method rest ih =>
      have native : L.tie.Natives { name := method.name, body := .method method index a }
          { name := method.name, body := .method method index b } :=
        ⟨rfl, .method method index (L.tie.linked tied), .nil, rfl⟩
      exact (newNative_agree lawful native).bind fun _ _ made =>
        (rawSet_agree lawful tied (.string _) (.native made)).andThen fun _ _ => ih

theorem setEnabled_agree (index : Nat) (on : Bool)
    : L.Agree i (Connection.setEnabled index on) (Connection.setEnabled index on) Eq :=
  .modifyGet fun alike =>
    ⟨lawful.setEnabled index on alike, (lawful.reads alike).connections.isConnected index⟩

theorem connectionTable_agree (index : Nat)
    : L.Agree i (connectionTable index) (connectionTable index) L.tie.TableRefs := by
  refine (newTable_agree lawful).bind fun _ _ tied => .bind .get fun m n alike => ?_
  rw [(lawful.reads alike).connections.info? index]
  refine (setPlainFields_agree lawful tied _ ?_).andThen fun _ _ =>
    (setMethods_agree lawful tied index _).andThen fun _ _ => .pure tied
  cases ConnectionRegistry.info? n.connections index <;>
    simp [Value.isReference, Value.handle?, Value.orNil, Value.ofNat]

-----------------------------------------------------------------------------------------
-- Criteria
-----------------------------------------------------------------------------------------

theorem countCriterion_agree (tied : L.tie.TableRefs a b) (name : String)
    : L.Agree i (countCriterion a name) (countCriterion b name) Eq := by
  refine (rawGet_agree lawful tied (.string name)).lift.bind fun _ _ value => ?_
  rw [value.kind]
  cases value with
  | nil => exact .pure rfl
  | number x =>
      dsimp only
      split
      · split
        · exact .pure rfl
        · exact refuse_agree _
      · exact refuse_agree _
  | boolean | string | table | closure | native => exact refuse_agree _

theorem listCriterion_agree (tied : L.tie.TableRefs a b) (name : String)
    : L.Agree i (listCriterion a name) (listCriterion b name) L.tie.Lists := by
  refine (rawGet_agree lawful tied (.string name)).lift.bind fun _ _ value => ?_
  cases value with
  | nil => exact .pure .nil
  | table items => exact (table_agree lawful items).lift.bind fun _ _ alike => .pure alike.array
  | boolean | number | string | closure | native => exact refuse_agree _

/-- Where everything is tied, like tables spell the same criteria. -/
theorem criteria_agree (whole : L.tie.Whole) (tied : L.tie.TableRefs a b)
    : L.Agree i (criteria a) (criteria b) Eq := by
  refine (rawGet_agree lawful tied (.string _)).lift.bind fun _ _ name => ?_
  refine (countCriterion_agree lawful tied _).bind fun _ _ upvalues => ?_
  refine (countCriterion_agree lawful tied _).bind fun _ _ constants => ?_
  refine (rawGet_agree lawful tied (.string _)).lift.bind fun _ _ bytecodeOnly => ?_
  refine (listCriterion_agree lawful tied _).bind fun _ _ keys => ?_
  refine (listCriterion_agree lawful tied _).bind fun _ _ values => ?_
  refine (rawGet_agree lawful tied (.string _)).lift.bind fun _ _ metatable => .pure ?_
  rw [whole.values.mp name, upvalues, constants, whole.values.mp bytecodeOnly,
    whole.lists.mp keys, whole.lists.mp values, whole.values.mp metatable]

end

-----------------------------------------------------------------------------------------
-- Functions of the script surface
-----------------------------------------------------------------------------------------

end Likeness

/-- Whether a function of the script surface lists objects of the heap. -/
def ScriptFunction.surveys : ScriptFunction → Bool
  | enumerateObjects | filterObjects => true
  | _ => false

/-- A native lists objects of the heap. -/
def Native.Surveys (n : Native) : Prop :=
  ∃ f, n.body = .script f ∧ f.surveys = true

namespace Likeness

variable {ι : Type} {L : Likeness ι} {i : ι} {xs ys : List Value} (regular : L.Regular)

include regular

open Script in
/-- What a function of the script surface does without a call. -/
theorem run_agree (nested nested' : Script.Nested) {c d : Option ClosureRef}
    (caller : Option.Rel L.tie.ClosureRefs c d) {f : ScriptFunction}
    (quiet : f.surveys = true → L.tie.Whole) (silent : f ≠ .fireSignal)
    (arguments : L.tie.Lists xs ys)
    : L.Agree i (Script.run nested c f xs) (Script.run nested' d f ys) L.tie.Lists := by
  have lawful := regular.toLawful
  have arg (position : Nat) : L.tie.Values (argument xs position) (argument ys position) :=
    arguments.getD position
  have boolean (b : Bool) : L.tie.Lists [.boolean b] [.boolean b] := .cons (.boolean b) .nil
  cases f with
  | getGlobalEnv =>
      exact (regular.find .runtime).bind fun _ _ tied => .pure (.cons (.table tied) .nil)
  | getRootEnv =>
      exact .bind .get fun _ _ alike => .pure (.cons (.table (lawful.reads alike).globals) .nil)
  | getScriptEnv =>
      exact (required_agree arguments 0 _).bind fun _ _ id =>
        (regular.find (.script id)).bind fun _ _ tied => .pure (.cons (.table tied) .nil)
  | getModuleEnv =>
      exact (required_agree arguments 0 _).bind fun _ _ id =>
        (regular.find (.module id)).bind fun _ _ tied => .pure (.cons (.table tied) .nil)
  | installHook =>
      refine (requirePrivilege_agree lawful _).andThen fun _ _ => ?_
      refine (regular.install (arg 0) (arg 1)).bind fun _ _ former => .pure (.cons ?_ .nil)
      exact .orNil (former.map fun tied => .closure tied)
  | restoreHook =>
      exact (regular.restore (arg 0)).bind fun _ _ same => .pure (same ▸ boolean _)
  | installMetamethodHook =>
      refine (requirePrivilege_agree lawful _).andThen fun _ _ => ?_
      refine (string_agree arguments 1 _).bind fun name _ same => ?_
      subst same
      exact (regular.installMetamethod name (arg 0) (arg 2)).bind fun _ _ former =>
        .pure (.cons former .nil)
  | restoreMetamethodHook =>
      refine (string_agree arguments 1 _).bind fun name _ same => ?_
      subst same
      exact (regular.restoreMetamethod name (arg 0)).bind fun _ _ same =>
        .pure (same ▸ boolean _)
  | setProtected =>
      refine (requirePrivilege_agree lawful _).andThen fun _ _ => ?_
      refine (tableArgument_agree arguments 0 _).bind fun _ _ tied => ?_
      rw [(arg 1).isTruthy]
      exact (setReadOnly_agree lawful tied _).lift.andThen fun _ _ => .pure .nil
  | isProtected =>
      refine (tableArgument_agree arguments 0 _).bind fun _ _ tied => ?_
      exact (table_agree lawful tied).lift.bind fun _ _ alike =>
        .pure (alike.readOnly ▸ boolean _)
  | makeReadonly =>
      refine (requirePrivilege_agree lawful _).andThen fun _ _ => ?_
      refine (tableArgument_agree arguments 0 _).bind fun _ _ tied => ?_
      exact (setReadOnly_agree lawful tied _).lift.andThen fun _ _ =>
        .pure (.cons (.table tied) .nil)
  | makeWriteable =>
      refine (requirePrivilege_agree lawful _).andThen fun _ _ => ?_
      refine (tableArgument_agree arguments 0 _).bind fun _ _ tied => ?_
      exact (setReadOnly_agree lawful tied _).lift.andThen fun _ _ =>
        .pure (.cons (.table tied) .nil)
  | getRawMetatable =>
      refine (metatable_agree lawful (arg 0)).lift.bind fun _ _ found => .pure (.cons ?_ .nil)
      exact .orNil (found.map fun tied => .table tied)
  | setRawMetatable =>
      refine (requirePrivilege_agree lawful _).andThen fun _ _ => ?_
      refine (tableArgument_agree arguments 0 _).bind fun _ _ tied => ?_
      have metatable := arg 1
      generalize argument xs 1 = v at *
      generalize argument ys 1 = w at *
      have result : L.tie.Lists [.table _] [.table _] := .cons (.table tied) .nil
      cases metatable with
      | nil =>
          exact (setMetatable_agree lawful tied .none).lift.andThen fun _ _ => .pure result
      | table other =>
          exact (setMetatable_agree lawful tied (.some other)).lift.andThen fun _ _ =>
            .pure result
      | boolean | number | string | closure | native => exact .failThen _ _ _
  | setIdentity =>
      refine (integer_agree arguments 0 _).bind fun level _ same => ?_
      subst same
      exact (setLevel_agree lawful level).andThen fun _ _ => .pure .nil
  | getIdentity =>
      exact (level_agree lawful).lift.bind fun _ _ same => .pure (same ▸ .cons (.ofNat _) .nil)
  | checkCaller =>
      exact (isTrusted_agree lawful).lift.bind fun _ _ same => .pure (same ▸ boolean _)
  | getConstant =>
      refine (integer_agree arguments 1 _).bind fun position _ same => ?_
      subst same
      exact (constantAt_agree lawful (arg 0) position).bind fun _ _ held =>
        .pure (.cons (.orNil held) .nil)
  | setConstant =>
      refine (requirePrivilege_agree lawful _).andThen fun _ _ => ?_
      refine (integer_agree arguments 1 _).bind fun position _ same => ?_
      subst same
      exact (setConstant_agree lawful (arg 0) position (arg 2)).bind fun _ _ same =>
        .pure (same ▸ boolean _)
  | getConstants =>
      refine (constants_agree lawful (arg 0)).bind fun _ _ found => ?_
      cases found with
      | none => exact .pure (.cons .nil .nil)
      | some values => exact listed_agree lawful values
  | getNested =>
      refine (integer_agree arguments 1 _).bind fun position _ same => ?_
      subst same
      rw [(arg 2).isTruthy]
      refine (nested_agree lawful caller (arg 0) position _).bind fun _ _ found => ?_
      cases found with
      | none => exact .pure (.cons .nil .nil)
      | some nested =>
          cases nested with
          | description info => exact described_agree lawful info
          | closure tied => exact .pure (.cons (.closure tied) .nil)
  | getProtoInfo =>
      refine (info_agree lawful (arg 0)).bind fun _ _ found => ?_
      cases found with
      | none => exact .pure (.cons .nil .nil)
      | some same => exact same ▸ described_agree lawful _
  | functionHash =>
      refine (digest_agree lawful (arg 0)).bind fun _ _ found => .pure (.cons ?_ .nil)
      cases found with
      | none => exact .nil
      | some same => exact same ▸ .string _
  | cloneFunction =>
      exact (clone_agree lawful (arg 0)).lift.bind fun _ _ copy => .pure (.cons (.orNil copy) .nil)
  | isLclosure =>
      have f := arg 0
      dsimp only [Script.run]
      generalize argument xs 0 = v at *
      generalize argument ys 0 = w at *
      cases f <;> exact .pure (boolean _)
  | isNative =>
      have f := arg 0
      dsimp only [Script.run]
      generalize argument xs 0 = v at *
      generalize argument ys 0 = w at *
      cases f <;> exact .pure (boolean _)
  | newNativeClosure =>
      exact (wrap_agree lawful (arg 0)).bind fun _ _ wrapper => .pure (.cons wrapper .nil)
  | isRuntimeClosure | checkClosure =>
      exact (isRuntimeFunction_agree lawful (arg 0)).bind fun _ _ same =>
        .pure (same ▸ boolean _)
  | getRegistry =>
      exact .bind .get fun _ _ alike => listed_agree lawful (lawful.reads alike).retained
  | registerConnection =>
      refine (string_agree arguments 0 _).bind fun signal _ same => ?_
      subst same
      refine (regular.register signal (arg 1)).bind fun index _ same => ?_
      subst same
      exact (connectionTable_agree lawful index).lift.bind fun _ _ tied =>
        .pure (.cons (.table tied) .nil)
  | getConnections =>
      refine (string_agree arguments 0 _).bind fun signal _ same => ?_
      subst same
      refine .bind .get fun m n alike => ?_
      rw [(lawful.reads alike).connections.ofSignal signal]
      have handle (index : Nat)
          : L.Agree i (do return .table (← connectionTable index) : Action Value)
              (do return .table (← connectionTable index)) L.tie.Values :=
        (connectionTable_agree lawful index).lift.bind fun _ _ tied => .pure (.table tied)
      have listed (indices : List Nat) : indices.Forall₂ Eq indices :=
        List.forall₂_same.mpr fun _ _ => rfl
      exact (Agree.mapM (listed _) fun index _ same => same ▸ handle index).bind
        fun _ _ handles => listed_agree lawful handles
  | fireSignal => exact absurd rfl silent
  | enumerateObjects =>
      have whole := quiet rfl
      refine .bind .get fun m n alike => ?_
      dsimp only
      rw [(arg 0).isTruthy, (lawful.reads alike).heap whole]
      exact listed_agree lawful (whole.lists.mpr rfl)
  | filterObjects =>
      have whole := quiet rfl
      refine (string_agree arguments 0 _).bind fun name _ same => ?_
      subst same
      have filtered (kind : ObjectKind) {criteria other : Criteria} (same : criteria = other)
          : L.Agree i
              (do return [.table (← listTable (Inspection.filter (← get) kind criteria))]
                : Action (List Value))
              (do return [.table (← listTable (Inspection.filter (← get) kind other))])
              L.tie.Lists := by
        refine .bind .get fun m n alike => ?_
        rw [same, (lawful.reads alike).filter whole]
        exact listed_agree lawful (whole.lists.mpr rfl)
      dsimp only
      cases ObjectKind.ofName? name with
      | none => exact refuse_agree _
      | some kind =>
          have spec := arg 1
          dsimp only
          generalize argument xs 1 = v at *
          generalize argument ys 1 = w at *
          cases spec with
          | nil => exact filtered kind rfl
          | table tied =>
              exact (criteria_agree lawful whole tied).bind fun _ _ same => filtered kind same
          | boolean | number | string | closure | native => exact .failThen _ _ _

end Likeness
end HookMachine
