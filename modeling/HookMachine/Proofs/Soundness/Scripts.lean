import HookMachine.Proofs.Soundness.Hooks
import HookMachine.Proofs.Soundness.Reflection
import HookMachine.Proofs.Soundness.Registries
import HookMachine.Script.Surface

/-!
The functions that scripts find in the root globals, by the rules. Their results are valid for
the closure that calls them, whatever their arguments.
-/

namespace HookMachine

open Rules (Tracks Leads)

variable {rules : Rules} {own : List Guard} {m : Machine} {arguments : List Value}

/-- What calls within the running one do from a machine on. -/
def Rules.RunsNested (rules : Rules) (nested : Script.Nested) (m : Machine) : Prop :=
  ∀ ⦃own after f arguments⦄, rules.Sound own after → rules.Later m after
    → after.activeCalls = m.activeCalls → rules.Valid after f
    → (∀ value ∈ arguments, rules.Valid after value)
    → rules.Leads own (nested f arguments) after
        fun results last => ∀ value ∈ results, rules.Valid last value

theorem Rules.RunsNested.later {nested : Script.Nested} {left : List Guard} {after : Machine}
    (runs : rules.RunsNested nested m) (passed : rules.Passed m left after)
    : rules.RunsNested nested after :=
  fun _ _ _ _ sound later active =>
    runs sound (passed.later.trans later) (active.trans passed.active)

/-- A callback is called with arguments that were valid before. -/
theorem Rules.RunsNested.runs {nested : Script.Nested} (runs : rules.RunsNested nested m)
    (valid : ∀ value ∈ arguments, rules.Valid m value)
    : rules.Runs (nested · arguments) m :=
  fun _ _ _ sound later active callback => runs sound later active callback (later.all valid)

namespace Script

-----------------------------------------------------------------------------------------
-- Arguments
-----------------------------------------------------------------------------------------

theorem argument_valid (valid : ∀ value ∈ arguments, rules.Valid m value) (i : Nat)
    : rules.Valid m (argument arguments i) := by
  unfold argument
  rw [List.getD_eq_getElem?_getD]
  rcases held : arguments[i]? with _ | value
  · exact Rules.valid_nil
  · exact valid value (List.mem_of_getElem? held)

theorem required_leads (sound : rules.Sound own m)
    (valid : ∀ value ∈ arguments, rules.Valid m value) (i : Nat) (what : String)
    : rules.Leads own (required arguments i what) m
        fun value after => m = after ∧ rules.Valid m value := by
  unfold required
  split
  · exact .fail sound (Rules.tolerates_refused _) (.refl _)
  · exact .pure sound ⟨rfl, argument_valid valid i⟩

theorem integer_leads (sound : rules.Sound own m) (i : Nat) (what : String)
    : rules.Leads own (integer arguments i what) m fun _ after => m = after := by
  unfold integer
  dsimp only
  split
  · split
    · exact .pure sound rfl
    · exact .fail sound (Rules.tolerates_refused _) (.refl _)
  · exact .fail sound (Rules.tolerates_refused _) (.refl _)

theorem string_leads (sound : rules.Sound own m) (i : Nat) (what : String)
    : rules.Leads own (string arguments i what) m fun _ after => m = after := by
  unfold string
  split
  · exact .pure sound rfl
  · exact .fail sound (Rules.tolerates_refused _) (.refl _)

theorem table_leads (sound : rules.Sound own m)
    (valid : ∀ value ∈ arguments, rules.Valid m value) (i : Nat) (operation : String)
    : rules.Leads own (table arguments i operation) m
        fun ref after => m = after ∧ rules.Valid m (.table ref) := by
  unfold table
  split
  · rename_i ref same
    exact .pure sound ⟨rfl, same ▸ argument_valid valid i⟩
  · exact .fail sound (Rules.tolerates_refused _) (.refl _)

-----------------------------------------------------------------------------------------
-- Tables as results
-----------------------------------------------------------------------------------------

theorem fillList_leads (sound : rules.Sound own m) {ref : TableRef} {values : List Value}
    (start : Nat) (valid : rules.Valid m (.table ref))
    (values_valid : ∀ value ∈ values, rules.Valid m value)
    : rules.Leads own (fillList ref start values) m fun _ _ => True := by
  induction values generalizing m start with
  | nil => exact .pure sound trivial
  | cons value rest ih =>
      obtain ⟨first, others⟩ := List.forall_mem_cons.mp values_valid
      refine (Vm.rawSet_leads sound valid (Rules.valid_ofNat start) first).bind
        fun _ m₁ wrote _ => ?_
      exact ih wrote.sound (start + 1) (wrote.later.valid valid) (wrote.later.all others)

theorem listTable_leads (sound : rules.Sound own m) {values : List Value}
    (valid : ∀ value ∈ values, rules.Valid m value)
    : rules.Leads own (listTable values) m fun ref after => rules.Valid after (.table ref) := by
  refine (Vm.newTable_leads sound).bind fun ref m₁ made table_valid => ?_
  refine (fillList_leads made.sound 1 table_valid.1 (made.later.all valid)).bind
    fun _ m₂ filled _ => ?_
  exact .pure filled.sound (filled.later.valid table_valid.1)

theorem setFields_leads (sound : rules.Sound own m) {ref : TableRef}
    {fields : List (String × Value)} (valid : rules.Valid m (.table ref))
    (fields_valid : ∀ field ∈ fields, rules.Valid m field.2)
    : rules.Leads own (setFields ref fields) m fun _ _ => True := by
  induction fields generalizing m with
  | nil => exact .pure sound trivial
  | cons field rest ih =>
      obtain ⟨first, others⟩ := List.forall_mem_cons.mp fields_valid
      refine (Vm.rawSet_leads sound valid (Rules.valid_string _) first).bind
        fun _ m₁ wrote _ => ?_
      exact ih wrote.sound (wrote.later.valid valid)
        fun field member => wrote.later.valid (others field member)

theorem orNil_string_valid (text : Option String)
    : rules.Valid m (.orNil (text.map .string)) := by
  refine .orNil fun value same => ?_
  obtain ⟨text, _, rfl⟩ := Option.map_eq_some_iff.mp same
  exact Rules.valid_string text

theorem infoTable_leads (sound : rules.Sound own m) (info : PrototypeInfo)
    : rules.Leads own (infoTable info) m fun ref after => rules.Valid after (.table ref) := by
  refine (Vm.newTable_leads sound).bind fun ref m₁ made valid => ?_
  refine (setFields_leads made.sound valid.1 ?_).bind fun _ m₂ described _ => ?_
  · simp [orNil_string_valid]
  · exact .pure described.sound (described.later.valid valid.1)

theorem setMethods_leads (sound : rules.Sound own m) {ref : TableRef} (index : Nat)
    (methods : List ConnectionMethod) (valid : rules.Valid m (.table ref))
    : rules.Leads own (setMethods ref index methods) m fun _ _ => True := by
  induction methods generalizing m with
  | nil => exact .pure sound trivial
  | cons method rest ih =>
      have native : rules.SoundNative m
          { name := method.name, body := .method method index ref } :=
        ⟨rfl, by simp, trivial⟩
      refine (Vm.newNative_leads sound native).bind fun native m₁ made native_valid => ?_
      refine (Vm.rawSet_leads made.sound (made.later.valid valid) (Rules.valid_string _)
        native_valid).bind fun _ m₂ wrote _ => ?_
      exact ih wrote.sound ((made.later.trans wrote.later).valid valid)

theorem connectionTable_leads (sound : rules.Sound own m) (index : Nat)
    : rules.Leads own (connectionTable index) m
        fun ref after => rules.Valid after (.table ref) := by
  refine (Vm.newTable_leads sound).bind fun ref m₁ made valid => ?_
  refine .get ?_
  refine (setFields_leads made.sound valid.1 ?_).bind fun _ m₂ described _ => ?_
  · simp [orNil_string_valid, -Option.map_map]
  · have methods := setMethods_leads described.sound index ConnectionMethod.all
      (described.later.valid valid.1)
    refine methods.bind fun _ m₃ equipped _ => ?_
    exact .pure equipped.sound ((described.later.trans equipped.later).valid valid.1)

-----------------------------------------------------------------------------------------
-- Criteria
-----------------------------------------------------------------------------------------

theorem countCriterion_leads (sound : rules.Sound own m) {ref : TableRef} (name : String)
    (valid : rules.Valid m (.table ref))
    : rules.Leads own (countCriterion ref name) m fun _ after => m = after := by
  refine (Vm.rawGet_leads sound _ valid).lift.bind fun value after _ read => ?_
  obtain ⟨rfl, _⟩ := read
  dsimp only
  split
  · exact .pure sound rfl
  · split
    · split
      · exact .pure sound rfl
      · exact .fail sound (Rules.tolerates_refused _) (.refl _)
    · exact .fail sound (Rules.tolerates_refused _) (.refl _)
  · exact .fail sound (Rules.tolerates_refused _) (.refl _)

theorem listCriterion_leads (sound : rules.Sound own m) {ref : TableRef} (name : String)
    (valid : rules.Valid m (.table ref))
    : rules.Leads own (listCriterion ref name) m fun _ after => m = after := by
  refine (Vm.rawGet_leads sound _ valid).lift.bind fun value after _ read => ?_
  obtain ⟨rfl, value_valid⟩ := read
  split
  · exact .pure sound rfl
  · refine (Vm.table_leads sound value_valid).lift.bind fun t after _ read => ?_
    obtain ⟨rfl, _⟩ := read
    exact .pure sound rfl
  · exact .fail sound (Rules.tolerates_refused _) (.refl _)

theorem criteria_leads (sound : rules.Sound own m) {ref : TableRef}
    (valid : rules.Valid m (.table ref))
    : rules.Leads own (criteria ref) m fun _ after => m = after := by
  have field (name : String)
      : rules.Leads own (liftM (Vm.rawGet ref (.string name)) : Action Value) m
          fun _ after => m = after :=
    (Vm.rawGet_leads sound _ valid).lift.mono fun _ _ _ read => read.1
  refine (field _).bind fun name after _ same => ?_
  subst same
  refine (countCriterion_leads sound _ valid).bind fun upvalues after _ same => ?_
  subst same
  refine (countCriterion_leads sound _ valid).bind fun constants after _ same => ?_
  subst same
  refine (field _).bind fun bytecodeOnly after _ same => ?_
  subst same
  refine (listCriterion_leads sound _ valid).bind fun keys after _ same => ?_
  subst same
  refine (listCriterion_leads sound _ valid).bind fun values after _ same => ?_
  subst same
  refine (field _).bind fun metatable after _ same => ?_
  subst same
  exact .pure sound rfl

-----------------------------------------------------------------------------------------
-- Script functions
-----------------------------------------------------------------------------------------

/-- An operation that ends in one value gives a valid result if the value is valid. -/
theorem single_leads {ε α : Type} [FaultLike ε] {x : Run ε α} {good : α → Machine → Prop}
    {result : α → Value} (led : rules.Leads own x m good)
    (valid : ∀ a after, good a after → rules.Valid after (result a))
    : rules.Leads own (do return [result (← x)]) m
        fun results after => ∀ value ∈ results, rules.Valid after value :=
  led.bind fun a after passed holds => .pure passed.sound (by simpa using valid a after holds)

/-- A privileged operation goes on from where its caller was found trusted. -/
theorem privileged_leads {α : Type} {operation : String} {x : Action α}
    {good : α → Machine → Prop} (sound : rules.Sound own m)
    (led : ∀ after, rules.Sound own after → rules.Later m after → rules.Leads own x after good)
    : rules.Leads own (do Clearance.requirePrivilege operation; x) m good :=
  (Clearance.requirePrivilege_leads sound operation).bind fun _ after passed _ =>
    led after passed.sound passed.later

theorem connectionTables_leads (sound : rules.Sound own m) (indices : List Nat)
    : rules.Leads own
        (indices.mapM fun index => do return .table (← connectionTable index) : Action (List Value))
        m fun handles after => ∀ value ∈ handles, rules.Valid after value := by
  induction indices generalizing m with
  | nil => exact .pure sound (by simp)
  | cons index rest ih =>
      rw [List.mapM_cons, bind_assoc]
      refine (connectionTable_leads sound index).lift.bind fun ref m₁ made valid => ?_
      rw [pure_bind]
      refine (ih made.sound).bind fun handles m₂ more others => ?_
      exact .pure more.sound (List.forall_mem_cons.mpr ⟨more.later.valid valid, others⟩)

theorem run_leads {nested : Nested} {caller : Option ClosureRef} (sound : rules.Sound own m)
    (runs : rules.RunsNested nested m) (caller_valid : rules.ValidCaller m caller)
    (f : ScriptFunction) (valid : ∀ value ∈ arguments, rules.Valid m value)
    : rules.Leads own (run nested caller f arguments) m
        fun results after => ∀ value ∈ results, rules.Valid after value := by
  have arg := argument_valid valid
  cases f with
  | getGlobalEnv =>
      have found := Environment.find_leads sound .runtime (by simp)
      exact single_leads found fun _ _ valid => valid
  | getRootEnv => exact .get (.pure sound (by simpa using sound.globals_valid))
  | getScriptEnv =>
      refine (required_leads sound valid 0 _).bind fun id after _ read => ?_
      obtain ⟨rfl, id_valid⟩ := read
      have found := Environment.find_leads sound (.script id) (by simpa using id_valid)
      exact single_leads found fun _ _ valid => valid
  | getModuleEnv =>
      refine (required_leads sound valid 0 _).bind fun id after _ read => ?_
      obtain ⟨rfl, id_valid⟩ := read
      have found := Environment.find_leads sound (.module id) (by simpa using id_valid)
      exact single_leads found fun _ _ valid => valid
  | installHook =>
      refine privileged_leads sound fun after sound later => ?_
      have installed := Hook.install_leads sound (later.valid (arg 0)) (later.valid (arg 1))
      refine single_leads installed fun copy after copy_valid => .orNil fun value same => ?_
      obtain ⟨ref, known, rfl⟩ := Option.map_eq_some_iff.mp same
      exact copy_valid ref known
  | restoreHook =>
      exact single_leads (Hook.restore_leads sound _) fun _ _ _ => Rules.valid_boolean _
  | installMetamethodHook =>
      refine privileged_leads sound fun after sound later => ?_
      refine (string_leads sound 1 _).bind fun name after _ same => ?_
      subst same
      have installed :=
        Hook.installMetamethod_leads sound (later.valid (arg 0)) name (later.valid (arg 2))
      exact single_leads installed fun _ _ valid => valid
  | restoreMetamethodHook =>
      refine (string_leads sound 1 _).bind fun name after _ same => ?_
      subst same
      exact single_leads (Hook.restoreMetamethod_leads sound (arg 0) name)
        fun _ _ _ => Rules.valid_boolean _
  | setProtected =>
      refine privileged_leads sound fun after sound later => ?_
      refine (table_leads sound (later.all valid) 0 _).bind fun ref after _ read => ?_
      obtain ⟨rfl, ref_valid⟩ := read
      refine (Vm.setReadOnly_leads sound _ ref_valid).lift.bind fun _ after passed _ => ?_
      exact .pure passed.sound (by simp)
  | isProtected =>
      refine (table_leads sound valid 0 _).bind fun ref after _ read => ?_
      obtain ⟨rfl, ref_valid⟩ := read
      exact single_leads (Vm.table_leads sound ref_valid).lift fun _ _ _ => Rules.valid_boolean _
  | makeReadonly | makeWriteable =>
      refine privileged_leads sound fun after sound later => ?_
      refine (table_leads sound (later.all valid) 0 _).bind fun ref after _ read => ?_
      obtain ⟨rfl, ref_valid⟩ := read
      refine (Vm.setReadOnly_leads sound _ ref_valid).lift.bind fun _ after passed _ => ?_
      exact .pure passed.sound (by simpa using passed.later.valid ref_valid)
  | getRawMetatable =>
      refine single_leads (Vm.metatable_leads sound (arg 0)).lift fun mt after read => ?_
      obtain ⟨rfl, mt_valid⟩ := read
      refine .orNil fun value same => ?_
      obtain ⟨ref, known, rfl⟩ := Option.map_eq_some_iff.mp same
      exact mt_valid ref known
  | setRawMetatable =>
      refine privileged_leads sound fun after sound later => ?_
      refine (table_leads sound (later.all valid) 0 _).bind fun ref after _ read => ?_
      obtain ⟨rfl, ref_valid⟩ := read
      have attach (metatable : Option TableRef)
          (mt_valid : ∀ mt, metatable = some mt → rules.Valid after (.table mt))
          : rules.Leads own
              (do
                liftM (Vm.setMetatable ref metatable)
                return [.table ref] : Action (List Value))
              after fun results last => ∀ value ∈ results, rules.Valid last value :=
        (Vm.setMetatable_leads sound metatable ref_valid mt_valid).lift.bind fun _ last passed _ =>
          .pure passed.sound (by simpa using passed.later.valid ref_valid)
      dsimp only
      split
      · exact attach none (by simp)
      · rename_i mt same
        refine attach (some mt) ?_
        rintro _ ⟨⟩
        exact same ▸ later.valid (arg 1)
      · exact .fail sound (Rules.tolerates_refused _) (.refl _)
  | setIdentity =>
      refine (integer_leads sound 0 _).bind fun level after _ same => ?_
      subst same
      refine (Clearance.setLevel_leads sound level).bind fun _ after passed _ => ?_
      exact .pure passed.sound (by simp)
  | getIdentity =>
      exact single_leads (Clearance.level_leads sound).lift fun _ _ _ => Rules.valid_ofNat _
  | checkCaller =>
      exact single_leads (Clearance.isTrusted_leads sound).lift fun _ _ _ => Rules.valid_boolean _
  | getConstant =>
      refine (integer_leads sound 1 _).bind fun position after _ same => ?_
      subst same
      exact single_leads (Reflection.constant_leads sound (arg 0) position)
        fun _ _ valid => .orNil valid
  | setConstant =>
      refine privileged_leads sound fun after sound later => ?_
      refine (integer_leads sound 1 _).bind fun position after _ same => ?_
      subst same
      have changed :=
        Reflection.setConstant_leads sound (later.valid (arg 0)) position (later.valid (arg 2))
      exact single_leads changed fun _ _ _ => Rules.valid_boolean _
  | getConstants =>
      refine (Reflection.constants_leads sound (arg 0)).bind fun answer after passed known => ?_
      cases answer with
      | none => exact .pure passed.sound (by simp)
      | some constants =>
          exact single_leads (listTable_leads passed.sound (known constants rfl)).lift
            fun _ _ valid => valid
  | getNested =>
      refine (integer_leads sound 1 _).bind fun position after _ same => ?_
      subst same
      refine (Reflection.nested_leads sound caller_valid (arg 0) position _).bind
        fun answer after passed known => ?_
      rcases answer with _ | info | ref
      · exact .pure passed.sound (by simp)
      · exact single_leads (infoTable_leads passed.sound info).lift fun _ _ valid => valid
      · exact .pure passed.sound (by simpa using known ref rfl)
  | getProtoInfo =>
      refine (Reflection.info_leads sound (arg 0)).bind fun answer after passed _ => ?_
      cases answer with
      | none => exact .pure passed.sound (by simp)
      | some info => exact single_leads (infoTable_leads passed.sound info).lift fun _ _ valid => valid
  | functionHash =>
      exact single_leads (Reflection.digest_leads sound (arg 0)) fun _ _ _ => orNil_string_valid _
  | cloneFunction =>
      exact single_leads (Vm.clone_leads sound (arg 0)).lift fun _ _ valid => .orNil valid
  | isLclosure | isNative => dsimp only [run]; split <;> exact .pure sound (by simp)
  | newNativeClosure =>
      exact single_leads (Reflection.wrap_leads sound (arg 0)) fun _ _ valid => valid
  | isRuntimeClosure | checkClosure =>
      exact single_leads (Reflection.isRuntimeFunction_leads sound _)
        fun _ _ _ => Rules.valid_boolean _
  | getRegistry =>
      refine .get (single_leads (listTable_leads sound ?_).lift fun _ _ valid => valid)
      exact fun value => sound.valid_of_mem_retained
  | registerConnection =>
      refine (string_leads sound 0 _).bind fun signal after _ same => ?_
      subst same
      refine (Connection.register_leads sound signal (arg 1)).bind fun index after passed _ => ?_
      exact single_leads (connectionTable_leads passed.sound index).lift fun _ _ valid => valid
  | getConnections =>
      refine (string_leads sound 0 _).bind fun signal after _ same => ?_
      subst same
      refine .get ?_
      refine (connectionTables_leads sound _).bind fun handles after passed known => ?_
      exact single_leads (listTable_leads passed.sound known).lift fun _ _ valid => valid
  | fireSignal =>
      refine (string_leads sound 0 _).bind fun signal after _ same => ?_
      subst same
      have rest : ∀ value ∈ arguments.drop 1, rules.Valid m value :=
        fun value member => valid value (List.mem_of_mem_drop member)
      exact single_leads (Connection.fireSignal_leads sound (runs.runs rest) signal).lift
        fun _ _ _ => Rules.valid_ofNat _
  | enumerateObjects =>
      refine .get (single_leads (listTable_leads sound ?_).lift fun _ _ valid => valid)
      exact fun value => valid_of_mem_objects
  | filterObjects =>
      refine (string_leads sound 0 _).bind fun name after _ same => ?_
      subst same
      have search (kind : ObjectKind) (criteria : Criteria)
          : rules.Leads own
              (do return [.table (← listTable (Inspection.filter (← get) kind criteria))]
                : Action (List Value))
              m fun results last => ∀ value ∈ results, rules.Valid last value :=
        .get (single_leads (listTable_leads sound fun _ => valid_of_mem_filter).lift
          fun _ _ valid => valid)
      split
      · exact .fail sound (Rules.tolerates_refused _) (.refl _)
      · rename_i kind _
        split
        · exact search kind _
        · rename_i ref same
          refine (criteria_leads sound (same ▸ arg 1)).bind fun criteria after _ same => ?_
          subst same
          exact search kind criteria
        · exact .fail sound (Rules.tolerates_refused _) (.refl _)

theorem runMethod_leads {nested : Nested} (sound : rules.Sound own m)
    (runs : rules.RunsNested nested m) (method : ConnectionMethod) (index : Nat)
    (owner : TableRef) (valid : ∀ value ∈ arguments, rules.Valid m value)
    : rules.Leads own (runMethod nested method index owner arguments) m
        fun results after => ∀ value ∈ results, rules.Valid after value := by
  cases method with
  | enable | disable =>
      exact single_leads (Connection.setEnabled_leads sound index _) fun _ _ _ => Rules.valid_boolean _
  | fire =>
      refine single_leads (Connection.fire_leads sound (runs.runs ?_) index) fun _ _ _ => Rules.valid_boolean _
      intro value member
      refine valid value ?_
      split at member
      · split at member
        · exact List.mem_cons_of_mem _ member
        · exact member
      · exact member
  | disconnect =>
      exact single_leads (Connection.disconnect_leads sound index) fun _ _ _ => Rules.valid_boolean _

end Script
end HookMachine
