import HookMachine.Proofs.Bounds.Idling
import HookMachine.Proofs.Execution.Redirects

/-!
Instructions by the judgement of idling: an instruction that reaches no metamethod executes no
other, and its activation stays at its depth.
-/

namespace HookMachine

open Regime (Yields Idle)

variable {regime : Regime} {invoke : Invoke}

-----------------------------------------------------------------------------------------
-- The depth of an activation
-----------------------------------------------------------------------------------------

namespace Frame

@[simp]
theorem depth_write (frame : Frame) (r : Nat) (value : Value)
    : (frame.write r value).depth = frame.depth := by
  unfold write
  split <;> rfl

@[simp]
theorem depth_writeAll (frame : Frame) (r : Nat) (values : List Value)
    : (frame.writeAll r values).depth = frame.depth := by
  induction values generalizing frame r with
  | nil => rfl
  | cons value rest ih => exact (ih _ _).trans (frame.depth_write r value)

@[simp]
theorem depth_skipIf (frame : Frame) (condition : Bool)
    : (frame.skipIf condition).depth = frame.depth := by
  unfold skipIf
  split <;> rfl

@[simp]
theorem depth_takeResults (frame : Frame) (a c : Nat) (results : List Value)
    : (frame.takeResults a c results).depth = frame.depth := by
  unfold takeResults
  split <;> simp

end Frame

namespace Vm

@[simp]
theorem depth_spread (frame : Frame) (i : Instruction)
    : (spread frame i).depth = frame.depth := by
  unfold spread
  split <;> simp

-----------------------------------------------------------------------------------------
-- Metamethods
-----------------------------------------------------------------------------------------

theorem handler_idle (t : Table) (name : String) : regime.Idle (handler t name) := by
  unfold handler
  split
  · exact .pure trivial
  · exact (table_idle _).andThen fun _ => .pure trivial

theorem metamethod_idle (value : Value) (name : String)
    : regime.Idle (metamethod value name) := by
  unfold metamethod
  split
  · exact (table_idle _).andThen fun t => handler_idle t name
  · exact .pure trivial

theorem writeHandler_idle (t : Table) (key : Value) : regime.Idle (writeHandler t key) := by
  unfold writeHandler
  split
  · exact .pure trivial
  · exact handler_idle t _

-----------------------------------------------------------------------------------------
-- Operands
-----------------------------------------------------------------------------------------

variable (frame : Frame)

theorem constant_idle (k : Nat) : regime.Idle (constant frame k) := by
  refine (prototype_idle _).andThen fun p => ?_
  split
  · exact .pure trivial
  · exact .fail _

theorem operand_idle (field : Nat) : regime.Idle (operand frame field) := by
  unfold operand
  split
  · exact constant_idle frame _
  · exact .pure trivial

theorem upvalue_idle (index : Nat) : regime.Idle (upvalue frame index) := by
  unfold upvalue
  split
  · exact .pure trivial
  · exact .fail _

theorem loopNumber_idle (r : Nat) : regime.Idle (loopNumber frame r) := by
  unfold loopNumber
  dsimp only
  split
  · exact .pure trivial
  · exact .fail _

theorem arithmeticNumber_idle (value : Value) : regime.Idle (arithmeticNumber value) := by
  unfold arithmeticNumber
  split
  · exact .pure trivial
  · exact .fail _

theorem order_idle (left right : Value) : regime.Idle (order left right) := by
  have ordered (result : Ordering) : regime.Idle (pure result : Vm Ordering) := .pure trivial
  unfold order
  split
  · split
    · exact ordered .lt
    · split
      · exact ordered .eq
      · split
        · exact ordered .gt
        · exact .fail _
  · exact ordered _
  · exact .fail _

theorem concatenable_idle (value : Value) : regime.Idle (concatenable value) := by
  unfold concatenable
  split
  · exact .pure trivial
  · exact .pure trivial
  · exact .fail _

theorem length_idle (value : Value) : regime.Idle (length value) := by
  unfold length
  split
  · exact .pure trivial
  · exact (table_idle _).andThen fun _ => .pure trivial
  · exact .fail _

-----------------------------------------------------------------------------------------
-- Single instructions
-----------------------------------------------------------------------------------------

theorem jump_yields (offset : Int)
    : regime.Yields (jump frame offset) fun after => after.depth = frame.depth := by
  unfold jump
  dsimp only
  split
  · exact .fail _
  · exact .pure rfl

theorem capture_yields (descriptor : Instruction)
    : regime.Yields (capture frame descriptor) fun made => made.1.depth = frame.depth := by
  unfold capture
  split
  · split
    · exact .pure rfl
    · exact (newCell_idle _).andThen fun _ => .pure rfl
  · exact (upvalue_idle frame _).andThen fun _ => .pure rfl
  · exact .fail _

theorem captures_yields (count : Nat)
    : regime.Yields (captures count frame) fun made => made.1.depth = frame.depth := by
  induction count generalizing frame with
  | zero => exact .pure rfl
  | succ count ih =>
      unfold captures
      split
      · exact .fail _
      · refine (capture_yields _ _).bind fun first same => ?_
        refine (ih first.1).bind fun others later => ?_
        exact .pure (later.trans same)

theorem close_yields (i : Instruction)
    : regime.Yields (close frame i) fun after => after.depth = frame.depth := by
  refine (prototype_idle _).andThen fun p => ?_
  split
  · exact .fail _
  · refine (prototype_idle _).andThen fun nested => ?_
    refine (captures_yields frame _).bind fun made same => ?_
    exact (newClosure_idle _).andThen fun _ => .pure (by simpa using same)

theorem setList_yields (i : Instruction)
    : regime.Yields (setList frame i) fun after => after.depth = frame.depth := by
  unfold setList
  split
  · refine (table_idle _).andThen fun t => ?_
    split
    · exact .failThen _ _
    · exact (updateTable_idle _ _).andThen fun _ => .pure rfl
  · exact .fail _

theorem loopEnter_yields (i : Instruction)
    : regime.Yields (loopEnter frame i) fun after => after.depth = frame.depth := by
  refine (loopNumber_idle frame _).andThen fun start => ?_
  refine (loopNumber_idle frame _).andThen fun step => ?_
  refine (loopNumber_idle frame _).andThen fun _ => ?_
  exact (jump_yields _ _).mono fun _ same => by simpa using same

theorem loopNext_yields (i : Instruction)
    : regime.Yields (loopNext frame i) fun after => after.depth = frame.depth := by
  refine (loopNumber_idle frame _).andThen fun step => ?_
  refine (loopNumber_idle frame _).andThen fun index => ?_
  refine (loopNumber_idle frame _).andThen fun limit => ?_
  dsimp only
  split <;> split
  · exact (jump_yields _ _).mono fun _ same => by simpa using same
  · exact .pure (by simp)
  · exact (jump_yields _ _).mono fun _ same => by simpa using same
  · exact .pure (by simp)

/-- The instructions that read or write fields, and so may reach a metamethod. -/
def fieldOperations : List Opcode :=
  [.getGlobal, .setGlobal, .getTable, .setTable, .self]

theorem execute_yields {op : Opcode} (aside : op ∉ fieldOperations) (i : Instruction)
    : regime.Yields (execute invoke frame op i) fun after => after.depth = frame.depth := by
  have operands (use : Value → Value → Vm Frame)
      (uses : ∀ left right,
        regime.Yields (use left right) fun after => after.depth = frame.depth)
      : regime.Yields (do use (← operand frame i.b) (← operand frame i.c))
          fun after => after.depth = frame.depth :=
    (operand_idle frame _).andThen fun left => (operand_idle frame _).andThen fun right =>
      uses left right
  have arithmetic (op : Opcode)
      : regime.Yields
          (do
            let left ← operand frame i.b
            let right ← operand frame i.c
            let a ← arithmeticNumber left
            let b ← arithmeticNumber right
            return frame.write i.a (.number (arithmetic op a b)))
          fun after => after.depth = frame.depth :=
    operands _ fun _ _ => (arithmeticNumber_idle _).andThen fun _ =>
      (arithmeticNumber_idle _).andThen fun _ => .pure (by simp)
  cases op with
  | getGlobal | setGlobal | getTable | setTable | self => simp [fieldOperations] at aside
  | move | not | loadBool | loadNil => exact .pure (by simp)
  | loadK => exact (constant_idle frame _).andThen fun _ => .pure (by simp)
  | getUpval =>
      exact (upvalue_idle frame _).andThen fun _ => (readCell_idle _).andThen fun _ =>
        .pure (by simp)
  | setUpval =>
      exact (upvalue_idle frame _).andThen fun _ => (writeCell_idle _ _).andThen fun _ =>
        .pure rfl
  | newTable => exact newTable_idle.andThen fun _ => .pure (by simp)
  | add | sub | mul | div | mod | pow => exact arithmetic _
  | unm => exact (arithmeticNumber_idle _).andThen fun _ => .pure (by simp)
  | len => exact (length_idle _).andThen fun _ => .pure (by simp)
  | concat =>
      exact (Yields.mapM (fun r => concatenable_idle _) _).andThen fun _ => .pure (by simp)
  | jmp => exact jump_yields frame _
  | eq => exact operands _ fun _ _ => .pure (by simp)
  | lt | le => exact operands _ fun _ _ => (order_idle _ _).andThen fun _ => .pure (by simp)
  | test => exact .pure (by simp)
  | testSet =>
      unfold execute
      dsimp only
      split
      · exact .pure (by simp)
      · exact .pure (by simp)
  | forLoop => exact loopNext_yields frame i
  | forPrep => exact loopEnter_yields frame i
  | setList => exact setList_yields frame i
  | closure => exact close_yields frame i
  | vararg => exact .pure (by simp)
  | tForLoop => exact .fail _
  | close | call | tailCall | ret => exact .pure rfl

-----------------------------------------------------------------------------------------
-- The way to a call
-----------------------------------------------------------------------------------------

theorem checkDepth_yields (depth : Nat)
    : regime.Yields (checkDepth depth) fun _ => depth ≤ regime.config.limits.callDepth := by
  refine ⟨fun m governs => ?_⟩
  rcases Nat.lt_or_ge m.config.limits.callDepth depth with lt | le
  · rw [checkDepth_of_lt lt]
    exact .refl governs
  · rw [checkDepth_of_le le]
    exact ⟨.refl governs, governs.config ▸ le⟩

theorem followRedirects_idle (limit : Nat) (f : Value)
    : regime.Idle (followRedirects limit f) := by
  induction limit generalizing f with
  | zero =>
      cases f with
      | closure ref =>
          unfold followRedirects
          refine (closure_idle ref).andThen fun c => ?_
          split
          · exact .pure trivial
          · exact .fail _
      | _ => exact .pure trivial
  | succ limit ih =>
      cases f with
      | closure ref =>
          unfold followRedirects
          refine (closure_idle ref).andThen fun c => ?_
          split
          · exact .pure trivial
          · exact ih _
      | _ => exact .pure trivial

theorem resolve_idle (f : Value) : regime.Idle (resolve f) :=
  .andThen .get fun _ => followRedirects_idle _ f

theorem openFrame_yields (ref : ClosureRef) (arguments : List Value) (depth : Nat)
    : regime.Yields (openFrame ref arguments depth) fun frame => frame.depth = depth :=
  (closure_idle ref).andThen fun _ => (prototype_idle _).andThen fun _ => .pure rfl

end Vm
end HookMachine
