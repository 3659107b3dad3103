import HookMachine.Proofs.Bounds.Instructions
import HookMachine.Proofs.Likeness.Frames

/-!
Instructions by the judgement of agreement: one that reaches no metamethod does like things to
like activations.
-/

namespace HookMachine

theorem Tie.Tables.storeList {t : Tie} {x y : Table} (alike : t.Tables x y) {xs ys : List Value}
    (values : t.Lists xs ys) (start : Nat)
    : t.Tables (Vm.storeList x start xs) (Vm.storeList y start ys) := by
  induction values generalizing x y start with
  | nil => exact alike
  | cons value _ ih => exact ih (alike.set (.ofNat _) value) _

theorem Tie.Frames.spread {t : Tie} {f g : Frame} (alike : t.Frames f g) (instruction : Instruction)
    : t.Frames (Vm.spread f instruction) (Vm.spread g instruction) := by
  unfold Vm.spread
  split
  · exact alike.writeToTop _ alike.extra
  · exact alike.writeAll _ (alike.extra.fit _)

namespace Likeness

variable {ι : Type} {L : Likeness ι} {i : ι} {v w k l : Value}

open Vm

-----------------------------------------------------------------------------------------
-- Operands
-----------------------------------------------------------------------------------------

theorem arithmeticNumber_agree (value : L.tie.Values v w)
    : L.Agree i (arithmeticNumber v) (arithmeticNumber w) Eq := by
  unfold arithmeticNumber
  rw [value.toNumber?, value.kind]
  split
  · exact .pure rfl
  · exact .fail _

theorem order_agree (left : L.tie.Values v w) (right : L.tie.Values k l)
    : L.Agree i (order v k) (order w l) Eq := by
  have same : order v k = order w l := by
    cases left <;> cases right <;> rfl
  have ordered (result : Ordering) : L.Agree i (pure result : Vm Ordering) (pure result) Eq :=
    .pure rfl
  rw [same]
  unfold order
  split
  · split
    · exact ordered .lt
    · split
      · exact ordered .eq
      · split
        · exact ordered .gt
        · exact .fail _
  · exact ordered _
  · exact .fail _

theorem concatenable_agree (value : L.tie.Values v w)
    : L.Agree i (concatenable v) (concatenable w) Eq := by
  cases value with
  | number | string => exact .pure rfl
  | nil | boolean | table | closure | native => exact .fail _

section

variable {f g : Frame} (frames : L.tie.Frames f g)

include frames

theorem malformed_agree {α β : Type} {related : α → β → Prop} (why : Malformation)
    : L.Agree i (malformed f why : Vm α) (malformed g why) related := by
  unfold malformed
  rw [frames.pc]
  exact .fail _

theorem upvalue_agree (index : Nat)
    : L.Agree i (upvalue f index) (upvalue g index) fun x y => x = y ∧ L.tie.cell x := by
  unfold upvalue
  rw [← frames.upvalues]
  split
  · exact .pure ⟨rfl, frames.cells _ (Array.mem_of_getElem? ‹_›)⟩
  · exact malformed_agree frames _

theorem loopNumber_agree (r : Nat) : L.Agree i (loopNumber f r) (loopNumber g r) Eq := by
  unfold loopNumber
  dsimp only
  rw [(frames.registers r).toNumber?, (frames.registers r).kind]
  split
  · exact .pure rfl
  · exact .fail _

theorem jump_agree (offset : Int) : L.Agree i (jump f offset) (jump g offset) L.tie.Frames := by
  unfold jump
  dsimp only
  rw [frames.pc]
  split
  · exact .fail _
  · exact .pure { frames with pc := rfl }

end

variable (lawful : L.Lawful)

include lawful

-----------------------------------------------------------------------------------------
-- Metamethods
-----------------------------------------------------------------------------------------

theorem handler_agree {x y : Table} (alike : L.tie.Tables x y) (name : String)
    : L.Agree i (handler x name) (handler y name) L.tie.Values := by
  have metatable := alike.metatable
  unfold handler
  generalize x.metatable = o at *
  generalize y.metatable = p at *
  cases metatable with
  | none => exact .pure .nil
  | some tied =>
      exact (table_agree lawful tied).bind fun _ _ alike => .pure (.orNil (alike.field? name))

theorem metamethod_agree (value : L.tie.Values v w) (name : String)
    : L.Agree i (metamethod v name) (metamethod w name) L.tie.Values := by
  cases value with
  | table tied =>
      exact (table_agree lawful tied).bind fun _ _ alike => handler_agree lawful alike name
  | nil | boolean | number | string | closure | native => exact .pure .nil

theorem writeHandler_agree {x y : Table} (alike : L.tie.Tables x y) (key : L.tie.Values k l)
    : L.Agree i (writeHandler x k) (writeHandler y l) L.tie.Values := by
  unfold writeHandler
  rw [(alike.get? key).isSome]
  split
  · exact .pure .nil
  · exact handler_agree lawful alike _

theorem length_agree (value : L.tie.Values v w) : L.Agree i (length v) (length w) Eq := by
  cases value with
  | string => exact .pure rfl
  | table tied => exact (table_agree lawful tied).bind fun _ _ alike => .pure alike.size
  | nil | boolean | number | closure | native => exact .fail _

variable {f g : Frame} (frames : L.tie.Frames f g)

include frames

theorem constant_agree (k : Nat)
    : L.Agree i (constant f k) (constant g k) L.tie.Values := by
  unfold constant
  rw [← frames.prototype]
  refine (prototype_agree lawful frames.known).bind fun p q alike => ?_
  have found := alike.constants.getElem? k
  rw [Array.getElem?_toList, Array.getElem?_toList] at found
  generalize p.constants[k]? = o at *
  generalize q.constants[k]? = o' at *
  cases found with
  | some value => exact .pure value
  | none => exact malformed_agree frames _

theorem operand_agree (field : Nat)
    : L.Agree i (operand f field) (operand g field) L.tie.Values := by
  unfold operand
  split
  · exact constant_agree lawful frames _
  · exact .pure (frames.registers field)

-----------------------------------------------------------------------------------------
-- Single instructions
-----------------------------------------------------------------------------------------

theorem capture_agree (descriptor : Instruction)
    : L.Agree i (capture f descriptor) (capture g descriptor)
        fun x y => L.tie.Frames x.1 y.1 ∧ x.2 = y.2 ∧ L.tie.cell x.2 := by
  unfold capture
  rw [← frames.captured]
  split
  · split
    · rename_i cell found
      obtain ⟨_, _, listed, _⟩ := List.lookup_eq_some_iff.mp found
      have member : (descriptor.b, cell) ∈ f.captured := listed ▸ List.mem_append_cons_self
      exact .pure ⟨frames, rfl, frames.capturedCells _ member⟩
    · refine (newCell_agree lawful (frames.registers _)).bind fun cell _ ⟨same, known⟩ => ?_
      subst same
      refine .pure ⟨{ frames with captured := rfl, capturedCells := ?_ }, rfl, known⟩
      exact List.forall_mem_cons.mpr ⟨known, frames.capturedCells⟩
  · exact (upvalue_agree frames _).bind fun _ _ ⟨same, known⟩ => .pure ⟨frames, same, known⟩
  · exact malformed_agree frames _

theorem captures_agree (count : Nat)
    : L.Agree i (captures count f) (captures count g)
        fun x y => L.tie.Frames x.1 y.1 ∧ x.2 = y.2 ∧ ∀ cell ∈ x.2, L.tie.cell cell := by
  induction count generalizing f g with
  | zero => exact .pure ⟨frames, rfl, by simp⟩
  | succ count ih =>
      have fetched : g.code[g.pc]? = f.code[f.pc]? := by rw [frames.code, frames.pc]
      have next : L.tie.Frames { f with pc := f.pc + 1 } { g with pc := g.pc + 1 } :=
        { frames with pc := congrArg (· + 1) frames.pc }
      unfold captures
      rw [fetched]
      split
      · rw [frames.pc]
        exact .fail _
      · refine (capture_agree lawful next _).bind fun x y ⟨after, same, known⟩ => ?_
        refine (ih after).bind fun others _ ⟨last, same_others, known_others⟩ => ?_
        exact .pure ⟨last, by rw [same, same_others],
          List.forall_mem_cons.mpr ⟨known, known_others⟩⟩

theorem close_agree (instruction : Instruction)
    : L.Agree i (close f instruction) (close g instruction) L.tie.Frames := by
  unfold close
  rw [← frames.prototype]
  refine (prototype_agree lawful frames.known).bind fun p q alike => ?_
  rw [← alike.nested]
  split
  · exact malformed_agree frames _
  · rename_i nested found
    have known := alike.known nested (Array.mem_of_getElem? found)
    refine (prototype_agree lawful known).bind fun _ _ alike => ?_
    rw [alike.upvalues]
    refine (captures_agree lawful frames _).bind fun x y ⟨after, same, cells⟩ => ?_
    have made : L.tie.Closures
        { prototype := nested, upvalues := x.2.toArray, environment := x.1.environment }
        { prototype := nested, upvalues := y.2.toArray, environment := y.1.environment } :=
      ⟨rfl, known, by rw [same], by simpa using cells, after.environment, .none, rfl⟩
    exact (newClosure_agree lawful made).bind fun _ _ tied => .pure (after.write _ (.closure tied))

theorem setList_agree (instruction : Instruction)
    : L.Agree i (setList f instruction) (setList g instruction) L.tie.Frames := by
  have list := frames.registers instruction.a
  unfold setList
  generalize f.read instruction.a = v at *
  generalize g.read instruction.a = w at *
  cases list with
  | table tied =>
      refine (table_agree lawful tied).bind fun x y alike => ?_
      rw [alike.readOnly]
      split
      · exact .failThen _ _ _
      · refine (updateTable_agree lawful tied fun alike => ?_).andThen fun _ _ => .pure frames
        exact alike.storeList (frames.span _ _) _
  | nil | boolean | number | string | closure | native => exact .fail _

omit lawful in
theorem loopEnter_agree (instruction : Instruction)
    : L.Agree i (loopEnter f instruction) (loopEnter g instruction) L.tie.Frames := by
  refine (loopNumber_agree frames _).bind fun start _ same => ?_
  refine (loopNumber_agree frames _).bind fun step _ steps => ?_
  refine (loopNumber_agree frames _).andThen fun _ _ => ?_
  rw [← same, ← steps]
  exact jump_agree (frames.write _ (.number _)) _

omit lawful in
theorem loopNext_agree (instruction : Instruction)
    : L.Agree i (loopNext f instruction) (loopNext g instruction) L.tie.Frames := by
  refine (loopNumber_agree frames _).bind fun step _ same_step => ?_
  refine (loopNumber_agree frames _).bind fun index _ same_index => ?_
  refine (loopNumber_agree frames _).bind fun limit _ same_limit => ?_
  subst same_step same_index same_limit
  have counted := frames.write instruction.a (.number (index + step))
  dsimp only
  split
  all_goals
    split
    · exact jump_agree (counted.write _ (.number _)) _
    · exact .pure counted

/-- What the instructions do that reach no metamethod, in like activations. -/
theorem execute_agree {invoke invoke' : Invoke} {op : Opcode} (aside : op ∉ fieldOperations)
    (instruction : Instruction)
    : L.Agree i (execute invoke f op instruction) (execute invoke' g op instruction)
        L.tie.Frames := by
  have operands {use use' : Value → Value → Vm Frame}
      (uses : ∀ {v w k l}, L.tie.Values v w → L.tie.Values k l
        → L.Agree i (use v k) (use' w l) L.tie.Frames)
      : L.Agree i (do use (← operand f instruction.b) (← operand f instruction.c))
          (do use' (← operand g instruction.b) (← operand g instruction.c)) L.tie.Frames :=
    (operand_agree lawful frames _).bind fun _ _ left =>
      (operand_agree lawful frames _).bind fun _ _ right => uses left right
  cases op with
  | getGlobal | setGlobal | getTable | setTable | self => simp [fieldOperations] at aside
  | move => exact .pure (frames.write _ (frames.registers _))
  | loadBool => exact .pure ((frames.write _ (.boolean _)).skipIf _)
  | loadNil =>
      refine .pure (frames.writeAll _ (List.forall₂_same.mpr fun value member => ?_))
      exact List.eq_of_mem_replicate member ▸ .nil
  | not =>
      refine .pure ?_
      rw [(frames.registers _).isTruthy]
      exact frames.write _ (.boolean _)
  | loadK =>
      exact (constant_agree lawful frames _).bind fun _ _ value => .pure (frames.write _ value)
  | getUpval =>
      refine (upvalue_agree frames _).bind fun cell _ tied => ?_
      obtain ⟨same, known⟩ := tied
      rw [← same]
      exact (readCell_agree lawful known).bind fun _ _ value => .pure (frames.write _ value)
  | setUpval =>
      refine (upvalue_agree frames _).bind fun cell _ tied => ?_
      obtain ⟨same, known⟩ := tied
      rw [← same]
      exact (writeCell_agree lawful known (frames.registers _)).andThen fun _ _ => .pure frames
  | newTable =>
      exact (newTable_agree lawful).bind fun _ _ tied => .pure (frames.write _ (.table tied))
  | add | sub | mul | div | mod | pow =>
      refine operands fun left right => ?_
      refine (arithmeticNumber_agree left).bind fun x _ same => ?_
      refine (arithmeticNumber_agree right).bind fun y _ also => ?_
      rw [← same, ← also]
      exact .pure (frames.write _ (.number _))
  | unm =>
      refine (arithmeticNumber_agree (frames.registers _)).bind fun x _ same => ?_
      rw [← same]
      exact .pure (frames.write _ (.number _))
  | len =>
      refine (length_agree lawful (frames.registers _)).bind fun n _ same => ?_
      rw [← same]
      exact .pure (frames.write _ (.ofNat _))
  | concat =>
      have same (rs : List Nat) : rs.Forall₂ Eq rs := List.forall₂_same.mpr fun _ _ => rfl
      have texts (rs : List Nat)
          : L.Agree i (rs.mapM fun r => concatenable (f.read r))
              (rs.mapM fun r => concatenable (g.read r)) (List.Forall₂ Eq) :=
        .mapM (same rs) fun r _ same => same ▸ concatenable_agree (frames.registers r)
      refine (texts _).bind fun texts _ joined => ?_
      rw [List.forall₂_eq_eq_eq] at joined
      rw [← joined]
      exact .pure (frames.write _ (.string _))
  | jmp => exact jump_agree frames _
  | eq =>
      refine operands fun left right => ?_
      rw [Tie.Values.beq left right]
      exact .pure (frames.skipIf _)
  | lt | le =>
      refine operands fun left right => ?_
      refine (order_agree left right).bind fun ordering _ same => ?_
      rw [← same]
      exact .pure (frames.skipIf _)
  | test =>
      refine .pure ?_
      rw [(frames.registers _).isTruthy]
      exact frames.skipIf _
  | testSet =>
      unfold execute
      dsimp only
      rw [(frames.registers _).isTruthy]
      split
      · exact .pure (frames.write _ (frames.registers _))
      · exact .pure (frames.skipIf _)
  | forLoop => exact loopNext_agree frames instruction
  | forPrep => exact loopEnter_agree frames instruction
  | setList => exact setList_agree lawful frames instruction
  | closure => exact close_agree lawful frames instruction
  | vararg => exact .pure (frames.spread instruction)
  | tForLoop => exact malformed_agree frames _
  | close | call | tailCall | ret => exact .pure frames

end Likeness
end HookMachine
