import HookMachine.Execution.Instruction
import HookMachine.Proofs.Soundness.Activations
import HookMachine.Proofs.Soundness.Fields

/-!
Instructions by the rules: each leads a valid activation to a valid one, to a call of valid
values, or to valid results.
-/

namespace HookMachine

open Rules (Tracks Leads)

variable {rules : Rules} {own : List Guard} {m : Machine} {invoke : Invoke} {frame : Frame}

/-- What follows an instruction is valid. -/
def Rules.ValidFlow (rules : Rules) (m : Machine) : Vm.Flow → Prop
  | .next frame => rules.ValidFrame m frame
  | .call frame f arguments _ =>
      rules.ValidFrame m frame ∧ rules.Valid m f ∧ ∀ value ∈ arguments, rules.Valid m value
  | .finish results => ∀ value ∈ results, rules.Valid m value

namespace Vm

-----------------------------------------------------------------------------------------
-- Operands
-----------------------------------------------------------------------------------------

theorem malformed_leads {α : Type} {good : α → Machine → Prop} (sound : rules.Sound own m)
    (frame : Frame) (why : Malformation)
    : rules.Leads own (malformed frame why) m good :=
  .fail sound (.of_blameless rfl) (.refl _)

theorem constant_leads (sound : rules.Sound own m) (valid : rules.ValidFrame m frame) (k : Nat)
    : rules.Leads own (constant frame k) m
        fun value after => m = after ∧ rules.Valid m value := by
  refine (prototype_leads sound frame.prototype).bind fun p after _ read => ?_
  obtain ⟨rfl, rfl⟩ := read
  split
  · rename_i value held
    exact .pure sound ⟨rfl, valid.prototype.constant (Array.mem_of_getElem? held)⟩
  · exact malformed_leads sound frame _

theorem operand_leads (sound : rules.Sound own m) (valid : rules.ValidFrame m frame)
    (field : Nat)
    : rules.Leads own (operand frame field) m
        fun value after => m = after ∧ rules.Valid m value := by
  unfold operand
  split
  · exact constant_leads sound valid _
  · exact .pure sound ⟨rfl, valid.read field⟩

theorem upvalue_leads (sound : rules.Sound own m) (valid : rules.ValidFrame m frame)
    (index : Nat)
    : rules.Leads own (upvalue frame index) m
        fun cell after => m = after ∧ rules.ValidCell m cell := by
  unfold upvalue
  split
  · rename_i cell held
    exact .pure sound ⟨rfl, valid.upvalues cell (Array.mem_of_getElem? held)⟩
  · exact malformed_leads sound frame _

theorem loopNumber_leads (sound : rules.Sound own m) (frame : Frame) (r : Nat)
    : rules.Leads own (loopNumber frame r) m fun _ after => m = after := by
  unfold loopNumber
  dsimp only
  split
  · exact .pure sound rfl
  · exact .fail sound (.of_blameless rfl) (.refl _)

theorem arithmeticNumber_leads (sound : rules.Sound own m) (value : Value)
    : rules.Leads own (arithmeticNumber value) m fun _ after => m = after := by
  unfold arithmeticNumber
  split
  · exact .pure sound rfl
  · exact .fail sound (.of_blameless rfl) (.refl _)

theorem order_leads (sound : rules.Sound own m) (left right : Value)
    : rules.Leads own (order left right) m fun _ after => m = after := by
  have ordered (result : Ordering)
      : rules.Leads own (pure result : Vm Ordering) m fun _ after => m = after :=
    .pure sound rfl
  unfold order
  split
  · split
    · exact ordered .lt
    · split
      · exact ordered .eq
      · split
        · exact ordered .gt
        · exact .fail sound (.of_blameless rfl) (.refl _)
  · exact ordered _
  · exact .fail sound (.of_blameless rfl) (.refl _)

theorem jump_leads (sound : rules.Sound own m) (valid : rules.ValidFrame m frame)
    (offset : Int)
    : rules.Leads own (jump frame offset) m
        fun frame after => m = after ∧ rules.ValidFrame m frame := by
  unfold jump
  dsimp only
  split
  · exact .fail sound (.of_blameless rfl) (.refl _)
  · exact .pure sound ⟨rfl, { valid with }⟩

theorem concatenable_leads (sound : rules.Sound own m) (value : Value)
    : rules.Leads own (concatenable value) m fun _ after => m = after := by
  unfold concatenable
  split
  · exact .pure sound rfl
  · exact .pure sound rfl
  · exact .fail sound (.of_blameless rfl) (.refl _)

theorem concatenables_leads (sound : rules.Sound own m) (frame : Frame) (registers : List Nat)
    : rules.Leads own (registers.mapM fun r => concatenable (frame.read r)) m
        fun _ after => m = after := by
  induction registers with
  | nil => exact .pure sound rfl
  | cons r rest ih =>
      rw [List.mapM_cons]
      refine (concatenable_leads sound _).bind fun text after _ same => ?_
      subst same
      refine ih.bind fun texts after _ same => ?_
      subst same
      exact .pure sound rfl

theorem length_leads (sound : rules.Sound own m) {value : Value} (valid : rules.Valid m value)
    : rules.Leads own (length value) m fun _ after => m = after := by
  cases value with
  | string s => exact .pure sound rfl
  | table ref =>
      refine (table_leads sound valid).bind fun t after _ read => ?_
      obtain ⟨rfl, _⟩ := read
      exact .pure sound rfl
  | _ => exact .fail sound (.of_blameless rfl) (.refl _)

-----------------------------------------------------------------------------------------
-- Closures and tables
-----------------------------------------------------------------------------------------

theorem capture_leads (sound : rules.Sound own m) (valid : rules.ValidFrame m frame)
    (descriptor : Instruction)
    : rules.Leads own (capture frame descriptor) m
        fun result after => rules.ValidFrame after result.1 ∧ rules.ValidCell after result.2 := by
  unfold capture
  split
  · split
    · rename_i cell found
      have listed := (subperm_of_lookup found).subset (.head _)
      exact .pure sound ⟨valid, valid.captured _ listed⟩
    · refine (newCell_leads sound (valid.read _)).bind fun cell after made cell_valid => ?_
      have still := valid.later made.later
      refine .pure made.sound ⟨{ still with captured := ?_ }, cell_valid⟩
      exact List.forall_mem_cons.mpr ⟨cell_valid, still.captured⟩
  · refine (upvalue_leads sound valid _).bind fun cell after _ read => ?_
    obtain ⟨rfl, cell_valid⟩ := read
    exact .pure sound ⟨valid, cell_valid⟩
  · exact malformed_leads sound frame _

theorem captures_leads (sound : rules.Sound own m) (valid : rules.ValidFrame m frame)
    (count : Nat)
    : rules.Leads own (captures count frame) m
        fun result after => rules.ValidFrame after result.1
          ∧ ∀ cell ∈ result.2, rules.ValidCell after cell := by
  induction count generalizing m frame with
  | zero => exact .pure sound ⟨valid, by simp⟩
  | succ count ih =>
      unfold captures
      split
      · exact .fail sound (.of_blameless rfl) (.refl _)
      · rename_i descriptor _
        have next : rules.ValidFrame m { frame with pc := frame.pc + 1 } := { valid with }
        refine (capture_leads sound next descriptor).bind fun first after took good => ?_
        obtain ⟨frame_valid, cell_valid⟩ := good
        refine (ih took.sound frame_valid).bind fun rest last more good => ?_
        obtain ⟨frame_valid, cells_valid⟩ := good
        refine .pure more.sound ⟨frame_valid, ?_⟩
        exact List.forall_mem_cons.mpr ⟨more.later.cell cell_valid, cells_valid⟩

theorem close_leads (sound : rules.Sound own m) (valid : rules.ValidFrame m frame)
    (i : Instruction)
    : rules.Leads own (close frame i) m fun frame after => rules.ValidFrame after frame := by
  refine (prototype_leads sound frame.prototype).bind fun p after _ read => ?_
  obtain ⟨rfl, rfl⟩ := read
  split
  · exact malformed_leads sound frame _
  · rename_i nested hit
    have nested_valid := valid.prototype.nested (Array.mem_of_getElem? hit)
    refine (prototype_leads sound nested).bind fun p after _ read => ?_
    obtain ⟨rfl, rfl⟩ := read
    refine (captures_leads sound valid _).bind fun captured after took good => ?_
    obtain ⟨frame_valid, cells_valid⟩ := good
    have closed : rules.SoundClosure after
        { prototype := nested, upvalues := captured.2.toArray
          environment := captured.1.environment } :=
      ⟨rfl, took.later.prototype nested_valid, frame_valid.environment, by simpa using cells_valid,
        by simp⟩
    refine (newClosure_leads took.sound closed rfl).bind fun ref last made good => ?_
    exact .pure made.sound ((frame_valid.later made.later).write _ good.1)

theorem storeList_sound {t : Table} {values : List Value} (start : Nat)
    (good : rules.SoundTable m t) (valid : ∀ value ∈ values, rules.Valid m value)
    : rules.SoundTable m (storeList t start values) := by
  induction values generalizing t start with
  | nil => exact good
  | cons value rest ih =>
      obtain ⟨first, others⟩ := List.forall_mem_cons.mp valid
      refine ih (start + 1) ⟨(Table.marked_set ..).trans good.plain, ?_⟩ others
      exact Table.references_set good.references (Rules.valid_ofNat _) first

theorem setList_leads (sound : rules.Sound own m) (valid : rules.ValidFrame m frame)
    (i : Instruction)
    : rules.Leads own (setList frame i) m fun frame after => rules.ValidFrame after frame := by
  unfold setList
  split
  · rename_i ref same
    have ref_valid : rules.Valid m (.table ref) := same ▸ valid.read i.a
    refine (table_leads sound ref_valid).bind fun t after _ read => ?_
    obtain ⟨rfl, found⟩ := read
    split
    · exact .fail sound (.of_blameless rfl) (.refl _)
    · rename_i writable
      have writable := Bool.eq_false_iff.mpr writable
      have fill := updateTable_leads sound ref_valid (fun _ _ => .listed found writable)
        fun t found => storeList_sound ((i.c - 1) * listBatch) (sound.tables found)
          (valid.span (i.a + 1) (i.b + 1))
      exact fill.bind fun _ after passed _ => .pure passed.sound (valid.later passed.later)
  · exact .fail sound (.of_blameless rfl) (.refl _)

theorem spread_valid (valid : rules.ValidFrame m frame) (i : Instruction)
    : rules.ValidFrame m (spread frame i) := by
  unfold spread
  split
  · exact { valid.writeAll i.a valid.extra with }
  · exact valid.writeAll i.a (fit_valid valid.extra _)

-----------------------------------------------------------------------------------------
-- Loops
-----------------------------------------------------------------------------------------

theorem loopEnter_leads (sound : rules.Sound own m) (valid : rules.ValidFrame m frame)
    (i : Instruction)
    : rules.Leads own (loopEnter frame i) m
        fun frame after => rules.ValidFrame after frame := by
  refine (loopNumber_leads sound frame _).bind fun start after _ same => ?_
  subst same
  refine (loopNumber_leads sound frame _).bind fun step after _ same => ?_
  subst same
  refine (loopNumber_leads sound frame _).bind fun limit after _ same => ?_
  subst same
  refine (jump_leads sound (valid.write _ (Rules.valid_number _)) _).mono ?_
  rintro frame _ _ ⟨rfl, frame_valid⟩
  exact frame_valid

theorem loopNext_leads (sound : rules.Sound own m) (valid : rules.ValidFrame m frame)
    (i : Instruction)
    : rules.Leads own (loopNext frame i) m
        fun frame after => rules.ValidFrame after frame := by
  refine (loopNumber_leads sound frame _).bind fun step after _ same => ?_
  subst same
  refine (loopNumber_leads sound frame _).bind fun index after _ same => ?_
  subst same
  refine (loopNumber_leads sound frame _).bind fun limit after _ same => ?_
  subst same
  have advanced := valid.write i.a (Rules.valid_number (index + step))
  have looped := advanced.write (i.a + 3) (Rules.valid_number (index + step))
  have back : rules.Leads own (jump _ i.offset) m fun frame after => rules.ValidFrame after frame :=
    (jump_leads sound looped i.offset).mono fun _ _ _ jumped => jumped.1 ▸ jumped.2
  -- The limit is compared in the direction of the step.
  split <;> split
  · exact back
  · exact .pure sound advanced
  · exact back
  · exact .pure sound advanced

-----------------------------------------------------------------------------------------
-- Instructions
-----------------------------------------------------------------------------------------

theorem execute_leads (conducts : rules.Conducts invoke) (sound : rules.Sound own m)
    (active : 0 < m.activeCalls) (valid : rules.ValidFrame m frame) (op : Opcode)
    (i : Instruction)
    : rules.Leads own (execute invoke frame op i) m
        fun frame after => rules.ValidFrame after frame := by
  cases op with
  | move => exact .pure sound (valid.write _ (valid.read _))
  | loadK =>
      refine (constant_leads sound valid _).bind fun value after _ read => ?_
      obtain ⟨rfl, value_valid⟩ := read
      exact .pure sound (valid.write _ value_valid)
  | loadBool => exact .pure sound ((valid.write _ (Rules.valid_boolean _)).skipIf _)
  | loadNil =>
      refine .pure sound (valid.writeAll _ fun value member => ?_)
      rw [List.eq_of_mem_replicate member]
      exact Rules.valid_nil
  | getUpval =>
      refine (upvalue_leads sound valid _).bind fun cell after _ read => ?_
      obtain ⟨rfl, cell_valid⟩ := read
      refine (readCell_leads sound cell_valid).bind fun value after passed value_valid => ?_
      exact .pure passed.sound ((valid.later passed.later).write _ value_valid)
  | setUpval =>
      refine (upvalue_leads sound valid _).bind fun cell after _ read => ?_
      obtain ⟨rfl, _⟩ := read
      refine (writeCell_leads sound (valid.read _) cell).bind fun _ after passed _ => ?_
      exact .pure passed.sound (valid.later passed.later)
  | getGlobal =>
      refine (constant_leads sound valid _).bind fun key after _ read => ?_
      obtain ⟨rfl, key_valid⟩ := read
      refine (index_leads conducts sound active _ valid.environment key_valid).bind
        fun value after passed value_valid => ?_
      exact .pure passed.sound ((valid.later passed.later).write _ value_valid)
  | setGlobal =>
      refine (constant_leads sound valid _).bind fun key after _ read => ?_
      obtain ⟨rfl, key_valid⟩ := read
      refine (assign_leads conducts sound active _ valid.environment key_valid (valid.read _)).bind
        fun _ after passed _ => ?_
      exact .pure passed.sound (valid.later passed.later)
  | getTable =>
      refine (operand_leads sound valid _).bind fun key after _ read => ?_
      obtain ⟨rfl, key_valid⟩ := read
      refine (index_leads conducts sound active _ (valid.read _) key_valid).bind
        fun value after passed value_valid => ?_
      exact .pure passed.sound ((valid.later passed.later).write _ value_valid)
  | setTable =>
      refine (operand_leads sound valid _).bind fun key after _ read => ?_
      obtain ⟨rfl, key_valid⟩ := read
      refine (operand_leads sound valid _).bind fun value after _ read => ?_
      obtain ⟨rfl, value_valid⟩ := read
      refine (assign_leads conducts sound active _ (valid.read _) key_valid value_valid).bind
        fun _ after passed _ => ?_
      exact .pure passed.sound (valid.later passed.later)
  | newTable =>
      refine (newTable_leads sound).bind fun ref after made good => ?_
      exact .pure made.sound ((valid.later made.later).write _ good.1)
  | self =>
      refine (operand_leads sound valid _).bind fun key after _ read => ?_
      obtain ⟨rfl, key_valid⟩ := read
      refine (index_leads conducts sound active _ (valid.read _) key_valid).bind
        fun method after passed method_valid => ?_
      have still := valid.later passed.later
      exact .pure passed.sound ((still.write _ (still.read _)).write _ method_valid)
  | add | sub | mul | div | mod | pow =>
      refine (operand_leads sound valid _).bind fun left after _ read => ?_
      obtain ⟨rfl, _⟩ := read
      refine (operand_leads sound valid _).bind fun right after _ read => ?_
      obtain ⟨rfl, _⟩ := read
      refine (arithmeticNumber_leads sound left).bind fun a after _ same => ?_
      subst same
      refine (arithmeticNumber_leads sound right).bind fun b after _ same => ?_
      subst same
      exact .pure sound (valid.write _ (Rules.valid_number _))
  | unm =>
      refine (arithmeticNumber_leads sound _).bind fun x after _ same => ?_
      subst same
      exact .pure sound (valid.write _ (Rules.valid_number _))
  | not => exact .pure sound (valid.write _ (Rules.valid_boolean _))
  | len =>
      refine (length_leads sound (valid.read _)).bind fun n after _ same => ?_
      subst same
      exact .pure sound (valid.write _ (Rules.valid_ofNat _))
  | concat =>
      refine (concatenables_leads sound frame _).bind fun texts after _ same => ?_
      subst same
      exact .pure sound (valid.write _ (Rules.valid_string _))
  | jmp =>
      refine (jump_leads sound valid _).mono ?_
      rintro frame _ _ ⟨rfl, frame_valid⟩
      exact frame_valid
  | eq =>
      refine (operand_leads sound valid _).bind fun left after _ read => ?_
      obtain ⟨rfl, _⟩ := read
      refine (operand_leads sound valid _).bind fun right after _ read => ?_
      obtain ⟨rfl, _⟩ := read
      exact .pure sound (valid.skipIf _)
  | lt | le =>
      refine (operand_leads sound valid _).bind fun left after _ read => ?_
      obtain ⟨rfl, _⟩ := read
      refine (operand_leads sound valid _).bind fun right after _ read => ?_
      obtain ⟨rfl, _⟩ := read
      refine (order_leads sound left right).bind fun ordering after _ same => ?_
      subst same
      exact .pure sound (valid.skipIf _)
  | test => exact .pure sound (valid.skipIf _)
  | testSet =>
      dsimp only [execute]
      split
      · exact .pure sound (valid.write _ (valid.read _))
      · exact .pure sound (valid.skipIf _)
  | forLoop => exact loopNext_leads sound valid i
  | forPrep => exact loopEnter_leads sound valid i
  | setList => exact setList_leads sound valid i
  | closure => exact close_leads sound valid i
  | vararg => exact .pure sound (spread_valid valid i)
  | tForLoop => exact malformed_leads sound frame _
  | close | call | tailCall | ret => exact .pure sound valid

theorem charge_leads (sound : rules.Sound own m)
    : rules.Leads own charge m fun _ _ => True := by
  refine .get ?_
  dsimp only
  split
  · split
    · exact .fail sound (.of_blameless rfl) (.refl _)
    · exact .ok rfl (sound.aside rfl rfl rfl rfl rfl rfl rfl rfl) trivial
  · exact .pure sound trivial

theorem step_leads (conducts : rules.Conducts invoke) (sound : rules.Sound own m)
    (active : 0 < m.activeCalls) (valid : rules.ValidFrame m frame)
    : rules.Leads own (step invoke frame) m fun flow after => rules.ValidFlow after flow := by
  unfold step
  split
  · exact .fail sound (.of_blameless rfl) (.refl _)
  · rename_i i _
    refine (charge_leads sound).bind fun _ after charged _ => ?_
    have next : rules.ValidFrame after { frame with pc := frame.pc + 1 } :=
      { valid.later charged.later with }
    split
    · exact malformed_leads charged.sound _ _
    · exact .pure charged.sound ⟨next, next.read _, next.span _ _⟩
    · exact .pure charged.sound ⟨next, next.read _, next.span _ _⟩
    · exact .pure charged.sound (next.span _ _)
    · rename_i op _ _ _ _
      have executed :=
        execute_leads conducts charged.sound (charged.active ▸ active) next op i
      exact executed.bind fun _ _ passed frame_valid => .pure passed.sound frame_valid

end Vm
end HookMachine
