import HookMachine.Proofs.Execution.Control
import HookMachine.Proofs.Execution.Nesting

/-!
Reports of malformed code. An instruction that is malformed fails by itself and says where: at its own
index, at that of the word that does not specify what a closure captures, or, where it jumps to before
the start of code, at the index after its own. Every report that ends a call comes from such an
instruction of an activation that the call has come to, or from something that an instruction called.
-/

namespace HookMachine

variable {α β : Type} {m after : Machine} {frame : Frame} {i : Instruction} {invoke : Invoke}
  {pc : Nat} {why : Malformation}

-----------------------------------------------------------------------------------------
-- What is malformed
-----------------------------------------------------------------------------------------

namespace Instruction

/-- The constant that a B or C field names, if it names one. -/
def constantOf (field : Nat) : List Nat :=
  if field &&& 0x100 ≠ 0 then [field &&& 0xff] else []

/-- The constants that an instruction reads, in order. -/
def constants (i : Instruction) : List Nat :=
  match i.operation? with
  | some .loadK | some .getGlobal | some .setGlobal => [i.bx]
  | some .getTable | some .self => constantOf i.c
  | some .setTable | some .add | some .sub | some .mul | some .div | some .mod | some .pow
  | some .eq | some .lt | some .le => constantOf i.b ++ constantOf i.c
  | _ => []

end Instruction

/-- Whether the prototype of an activation has no constant `k`. -/
def Machine.lacks (m : Machine) (frame : Frame) (k : Nat) : Bool :=
  (m.prototypes.get frame.prototype).constants[k]?.isNone

namespace Frame

/-- What is at a place of the code says what a closure captures, and the activation has it. -/
inductive Specifies (frame : Frame) (place : Nat) : Prop
  | register {word} (found : frame.code[place]? = some word)
    (operation : word.operation? = some .move)
  | upvalue {word} (found : frame.code[place]? = some word)
    (operation : word.operation? = some .getUpval) (has : word.b < frame.upvalues.size)

/-- Why what is at a place of the code does not. -/
inductive Misspecifies (frame : Frame) (place : Nat) : Malformation → Prop
  | missing (past : frame.code[place]? = none) : Misspecifies frame place .missingDescriptor
  | other {word} (found : frame.code[place]? = some word) (other : word.captures = false)
    : Misspecifies frame place .badDescriptor
  | upvalue {word} (found : frame.code[place]? = some word)
    (operation : word.operation? = some .getUpval) (lacks : frame.upvalues.size ≤ word.b)
    : Misspecifies frame place (.noUpvalue word.b)

theorem Specifies.congr {next : Frame} {place : Nat} (specifies : frame.Specifies place)
    (code : next.code = frame.code) (upvalues : next.upvalues = frame.upvalues)
    : next.Specifies place := by
  cases specifies with
  | register found operation => exact .register (code ▸ found) operation
  | upvalue found operation has => exact .upvalue (code ▸ found) operation (upvalues ▸ has)

theorem Misspecifies.congr {next : Frame} {place : Nat} (misspecifies : frame.Misspecifies place why)
    (code : next.code = frame.code) (upvalues : next.upvalues = frame.upvalues)
    : next.Misspecifies place why := by
  cases misspecifies with
  | missing past => exact .missing (code ▸ past)
  | other found other => exact .other (code ▸ found) other
  | upvalue found operation lacks => exact .upvalue (code ▸ found) operation (upvalues ▸ lacks)

/-- An instruction jumps. -/
inductive Jumps (frame : Frame) (i : Instruction) : Prop
  | always (operation : i.operation? = some .jmp)
  | enters {start limit step} (operation : i.operation? = some .forPrep)
    (starts : (frame.read i.a).toNumber? = some start)
    (limits : (frame.read (i.a + 1)).toNumber? = some limit)
    (steps : (frame.read (i.a + 2)).toNumber? = some step)
  | goesOn {start limit step} (operation : i.operation? = some .forLoop)
    (starts : (frame.read i.a).toNumber? = some start)
    (limits : (frame.read (i.a + 1)).toNumber? = some limit)
    (steps : (frame.read (i.a + 2)).toNumber? = some step)
    (within : if 0 < step then start + step ≤ limit else limit ≤ start + step)

/-- An instruction that an activation comes to is malformed: where it is reported, and why. -/
inductive Flawed (m : Machine) (frame : Frame) (i : Instruction) : Nat → Malformation → Prop
  | opcode (unknown : i.operation? = none) : Flawed m frame i frame.pc (.unknownOpcode i.opcode)
  | constant {k} (lacks : i.constants.find? (m.lacks frame) = some k)
    : Flawed m frame i frame.pc (.noConstant k)
  | upvalue (operation : i.operation? = some .getUpval ∨ i.operation? = some .setUpval)
    (lacks : frame.upvalues.size ≤ i.b)
    : Flawed m frame i frame.pc (.noUpvalue i.b)
  | nested (operation : i.operation? = some .closure)
    (lacks : (m.prototypes.get frame.prototype).nested[i.bx]? = none)
    : Flawed m frame i frame.pc (.noPrototype i.bx)
  /-- The first word behind the instruction that does not specify what it should. -/
  | descriptor {nested j why} (operation : i.operation? = some .closure)
    (found : (m.prototypes.get frame.prototype).nested[i.bx]? = some nested)
    (among : j < (m.prototypes.get nested).upvalues.toNat)
    (before : ∀ k < j, frame.Specifies (frame.pc + 1 + k))
    (misspecifies : frame.Misspecifies (frame.pc + 1 + j) why)
    : Flawed m frame i (frame.pc + 1 + j) why
  | generic (operation : i.operation? = some .tForLoop) : Flawed m frame i frame.pc .genericFor
  /-- Other than all the others this is reported at the index after that of the instruction. -/
  | jump (jumps : frame.Jumps i) (before : (frame.pc : Int) + 1 + i.offset < 0)
    : Flawed m frame i (frame.pc + 1) .jumpBeforeStart

end Frame

-----------------------------------------------------------------------------------------
-- Operations that report nothing
-----------------------------------------------------------------------------------------

/-- Where two operations in a row fail, one of them does. -/
theorem Run.of_bind_error {ε : Type} {x : Run ε α} {f : α → Run ε β} {halt : Halt ε}
    (ran : (x >>= f) m = .error halt after)
    : x m = .error halt after ∨ ∃ a middle, x m = .ok a middle ∧ f a middle = .error halt after := by
  rcases came : x m with ⟨a, middle⟩ | ⟨other, middle⟩
  · exact .inr ⟨a, middle, rfl, (Run.bind_ok came).symm.trans ran⟩
  · obtain ⟨rfl, rfl⟩ := EStateM.Result.error.inj ((Run.bind_error came).symm.trans ran)
    exact .inl rfl

/-- An operation does not report malformed code. -/
structure Vm.Silent (x : Vm α) : Prop where
  silent {m : Machine} {pc : Nat} {why : Malformation} {after : Machine}
    : x m ≠ .error (.failed (.malformed pc why)) after

namespace Vm.Silent

variable {x : Vm α} {f : α → Vm β}

theorem pure (a : α) : Silent (pure a) :=
  ⟨nofun⟩

theorem modify (change : Machine → α × Machine) : Silent (modifyGet change) :=
  ⟨nofun⟩

theorem fail {fault : Fault} (other : ∀ pc why, fault ≠ .malformed pc why)
    : Silent (Vm.fail fault : Vm α) := by
  refine ⟨fun {m pc why after} failed => other pc why ?_⟩
  cases failed
  rfl

/-- What comes second may know what the first comes to. -/
theorem follow (first : Silent x)
    (rest : ∀ a middle, x m = .ok a middle
      → ∀ pc why after, f a middle ≠ .error (.failed (.malformed pc why)) after)
    : (x >>= f) m ≠ .error (.failed (.malformed pc why)) after := by
  intro failed
  rcases Run.of_bind_error failed with failed | ⟨a, middle, came, failed⟩
  · exact first.silent failed
  · exact rest a middle came pc why after failed

theorem bind (first : Silent x) (rest : ∀ a, Silent (f a)) : Silent (x >>= f) :=
  ⟨first.follow fun a _ _ _ _ _ => (rest a).silent⟩

/-- Looking at the machine reports nothing. -/
theorem look {f : Machine → Vm β} (rest : ∀ m, Silent (f m)) : Silent (get >>= f) :=
  ⟨fun {m _ _ _} failed => (rest m).silent failed⟩

end Vm.Silent

namespace Vm

open Silent

theorem found_silent (result : Except Miss α) : Silent (found result) := by
  rcases result with miss | a
  · exact .fail (by cases miss <;> nofun)
  · exact .pure a

theorem table_silent (ref : TableRef) : Silent (table ref) :=
  .look fun _ => found_silent _

theorem prototype_silent (ref : PrototypeRef) : Silent (prototype ref) :=
  .look fun _ => .pure _

theorem newTable_silent : Silent newTable :=
  .modify _

theorem readCell_silent (cell : CellRef) : Silent (readCell cell) :=
  .look fun _ => .pure _

theorem writeCell_silent (cell : CellRef) (value : Value) : Silent (writeCell cell value) :=
  .modify _

theorem updateTable_silent (ref : TableRef) (change : Table → Table)
    : Silent (updateTable ref change) :=
  (table_silent ref).bind fun _ => .modify _

theorem checkOwner_silent (value : Value) : Silent (checkOwner value) := by
  refine .look fun m => ?_
  split
  · exact .pure _
  · exact .fail nofun

theorem checkKey_silent (key : Value) : Silent (checkKey key) := by
  unfold checkKey
  split
  · exact .fail nofun
  · split
    · exact .fail nofun
    · exact .pure _
  · exact .pure _

theorem handler_silent (t : Table) (name : String) : Silent (handler t name) := by
  unfold handler
  split
  · exact .pure _
  · exact (table_silent _).bind fun _ => .pure _

theorem writeHandler_silent (t : Table) (key : Value) : Silent (writeHandler t key) := by
  unfold writeHandler
  split
  · exact .pure _
  · exact handler_silent ..

theorem loopNumber_silent (frame : Frame) (r : Nat) : Silent (loopNumber frame r) := by
  unfold loopNumber
  dsimp only
  split
  · exact .pure _
  · exact .fail nofun

theorem arithmeticNumber_silent (value : Value) : Silent (arithmeticNumber value) := by
  unfold arithmeticNumber
  split
  · exact .pure _
  · exact .fail nofun

theorem order_silent (left right : Value) : Silent (order left right) := by
  unfold order
  split
  · repeat' split
    all_goals first
      | exact .pure _
      | exact .fail nofun
  · exact .pure _
  · exact .fail nofun

theorem concatenable_silent (value : Value) : Silent (concatenable value) := by
  unfold concatenable
  split
  · exact .pure _
  · exact .pure _
  · exact .fail nofun

/-- By induction over the registers. -/
theorem concatenables_silent (frame : Frame) (registers : List Nat)
    : Silent (registers.mapM fun r => concatenable (frame.read r)) := by
  induction registers with
  | nil => exact .pure _
  | cons r rest ih =>
      rw [List.mapM_cons]
      exact (concatenable_silent _).bind fun _ => ih.bind fun _ => .pure _

theorem length_silent (value : Value) : Silent (length value) := by
  unfold length
  split
  · exact .pure _
  · exact (table_silent _).bind fun _ => .pure _
  · exact .fail nofun

theorem setList_silent (frame : Frame) (i : Instruction) : Silent (setList frame i) := by
  unfold setList
  split
  · refine (table_silent _).bind fun t => ?_
    split
    · exact Silent.bind (.fail nofun) fun _ => (updateTable_silent ..).bind fun _ => .pure _
    · exact (updateTable_silent ..).bind fun _ => .pure _
  · exact .fail nofun

end Vm

-----------------------------------------------------------------------------------------
-- Courses that report nothing by themselves
-----------------------------------------------------------------------------------------

namespace Course

/-- A course does not report malformed code by itself, and fails as a call fails that it makes. -/
def Silent : Course α → Prop
  | .ends outcome => ∀ pc why after, outcome ≠ .error (.failed (.malformed pc why)) after
  | .calls _ _ next =>
      (∀ results after, (next (.ok results) after).Silent)
        ∧ ∀ fault after, next (.error fault) after = .ends (.error (.failed fault) after)
  | .asks .. => False

/-- By induction over the first course. -/
theorem Silent.bind {course : Course α} (silent : course.Silent) {f : α → Plan β}
    (rest : ∀ a m, (f a m).Silent)
    : (course.bind f).Silent := by
  induction course with
  | ends outcome =>
      rcases outcome with ⟨a, after⟩ | ⟨halt, after⟩
      · exact rest a after
      · intro pc why last failed
        cases failed
        exact silent pc why after rfl
  | calls call now next ih =>
      refine ⟨fun results after => ih _ after (silent.1 results after), fun fault after => ?_⟩
      change (next _ _).bind f = _
      rw [silent.2 fault after]
      rfl
  | asks request now next ih => exact silent.elim

/-- If such a course reports malformed code, a call does that it makes, by induction over it. -/
theorem Silent.of_run {course : Course α} (silent : course.Silent)
    (ran : course.run invoke = .error (.failed (.malformed pc why)) after)
    : ∃ call now, course.Makes invoke call now
        ∧ call.run invoke now = .error (.failed (.malformed pc why)) after := by
  induction course with
  | ends outcome => exact absurd ran (silent pc why after)
  | calls call now next ih =>
      rcases came : call.run invoke now with ⟨results, middle⟩ | ⟨_ | _, middle⟩
      · have tried := Run.attempt_ok came
        simp only [Course.run, tried] at ran
        obtain ⟨other, there, ⟨rest, comes⟩, failed⟩ := ih _ middle (silent.1 results middle) ran
        exact ⟨other, there, ⟨rest, .called tried comes⟩, failed⟩
      · rename_i fault
        have tried := Run.attempt_error came
        simp only [Course.run, tried, silent.2 fault middle] at ran
        cases ran
        exact ⟨call, now, ⟨next, .refl _⟩, came⟩
      · have tried : Run.attempt (call.run invoke) now = .error .outOfFuel middle := by
          simp [Run.attempt, came]
        simp only [Course.run, tried] at ran
        cases ran
  | asks request now next ih => exact silent.elim

end Course

namespace Plan

/-- A plan does not report malformed code by itself. -/
structure Silent (plan : Plan α) : Prop where
  silent (m : Machine) : (plan m).Silent

namespace Silent

theorem lift {x : Vm α} (silent : Vm.Silent x) : Silent (liftM x : Plan α) :=
  ⟨fun _ _ _ _ => silent.silent⟩

theorem pure (a : α) : Silent (pure a : Plan α) :=
  lift (.pure a)

theorem bind {plan : Plan α} {f : α → Plan β} (first : plan.Silent) (rest : ∀ a, (f a).Silent)
    : (plan >>= f).Silent :=
  ⟨fun m => (first.silent m).bind fun a m => (rest a).silent m⟩

theorem call (f : Value) (arguments : List Value) (caller : Option ClosureRef) (depth : Nat)
    : (Plan.call f arguments caller depth).Silent :=
  ⟨fun _ => ⟨fun _ _ _ _ _ => nofun, fun _ _ => rfl⟩⟩

end Silent

/-- By induction over how many tables may be visited. -/
theorem indexChain_silent (key : Value) (depth limit : Nat) (object : Value)
    : (indexChain key depth limit object).Silent := by
  induction limit generalizing object with
  | zero => exact .lift (.fail nofun)
  | succ limit ih =>
      cases object with
      | table ref =>
          refine .bind (.lift (Vm.table_silent _)) fun t => ?_
          split
          · exact .pure _
          · refine .bind (.lift (Vm.handler_silent ..)) fun next => ?_
            split
            · exact .pure _
            · split
              · exact .bind (.call ..) fun _ => .pure _
              · exact ih next
      | _ => exact .lift (.fail nofun)

theorem assignChain_silent (key value : Value) (depth limit : Nat) (object : Value)
    : (assignChain key value depth limit object).Silent := by
  induction limit generalizing object with
  | zero => exact .lift (.fail nofun)
  | succ limit ih =>
      cases object with
      | table ref =>
          refine .bind (.lift (Vm.checkOwner_silent _)) fun _ => ?_
          refine .bind (.lift (Vm.table_silent _)) fun t => ?_
          refine .bind (.lift (Vm.writeHandler_silent ..)) fun next => ?_
          split
          · split
            · exact .bind (.lift (.fail nofun)) fun _ => .lift (Vm.updateTable_silent ..)
            · exact .lift (Vm.updateTable_silent ..)
          · split
            · exact .bind (.call ..) fun _ => .pure _
            · exact ih next
      | _ => exact .lift (.fail nofun)

theorem index_silent (object key : Value) (depth : Nat) : (index object key depth).Silent :=
  indexChain_silent key depth Vm.maxChain object

theorem assign_silent (object key value : Value) (depth : Nat)
    : (assign object key value depth).Silent :=
  .bind (.lift (Vm.checkKey_silent key)) fun _ => assignChain_silent key value depth Vm.maxChain object

end Plan

-----------------------------------------------------------------------------------------
-- Constants and captures
-----------------------------------------------------------------------------------------

namespace Vm

variable {k field : Nat}

theorem prototype_eq (ref : PrototypeRef) : prototype ref m = .ok (m.prototypes.get ref) m :=
  rfl

theorem constant_of_has (has : m.lacks frame k = false)
    : ∃ value, constant frame.past k m = .ok value m := by
  obtain ⟨value, held⟩ : ∃ value, (m.prototypes.get frame.prototype).constants[k]? = some value := by
    refine Option.isSome_iff_exists.mp ?_
    simpa [Machine.lacks] using has
  refine ⟨value, (Run.bind_ok (prototype_eq frame.prototype)).trans ?_⟩
  rw [held]
  rfl

theorem constant_of_find (has : [k].find? (m.lacks frame) = none)
    : ∃ value, constant frame.past k m = .ok value m := by
  rw [List.find?_eq_none] at has
  exact constant_of_has (Bool.eq_false_iff.mpr (has k (List.mem_singleton_self k)))

theorem constant_of_lacks (lacks : m.lacks frame k = true)
    : constant frame.past k m = .error (.failed (.malformed frame.pc (.noConstant k))) m := by
  refine (Run.bind_ok (prototype_eq frame.prototype)).trans ?_
  rw [Option.isNone_iff_eq_none.mp lacks]
  rfl

open Instruction (constantOf)

theorem operand_of_has (has : (constantOf field).find? (m.lacks frame) = none)
    : ∃ value, operand frame.past field m = .ok value m := by
  unfold operand
  unfold constantOf at has
  split
  · rename_i named
    rw [if_pos named] at has
    exact constant_of_find has
  · exact ⟨_, rfl⟩

theorem operand_of_lacks (lacks : (constantOf field).find? (m.lacks frame) = some k)
    : operand frame.past field m = .error (.failed (.malformed frame.pc (.noConstant k))) m := by
  have lacking := List.find?_some lacks
  have member := List.mem_of_find?_eq_some lacks
  unfold operand
  unfold constantOf at member
  split
  · rename_i named
    rw [if_pos named, List.mem_singleton] at member
    subst member
    exact constant_of_lacks lacking
  · rename_i unnamed
    rw [if_neg unnamed] at member
    cases member

/-- The first operand is read before the second. -/
theorem operands_of_lacks {b c : Nat} {f : Value → Value → Vm α}
    (lacks : (constantOf b ++ constantOf c).find? (m.lacks frame) = some k)
    : (do
        let left ← operand frame.past b
        let right ← operand frame.past c
        f left right) m = .error (.failed (.malformed frame.pc (.noConstant k))) m := by
  rw [List.find?_append, Option.or_eq_some_iff] at lacks
  rcases lacks with first | ⟨has, second⟩
  · exact Run.bind_error (operand_of_lacks first)
  · obtain ⟨value, read⟩ := operand_of_has has
    exact (Run.bind_ok read).trans (Run.bind_error (operand_of_lacks second))

theorem upvalue_of_has {index : Nat} (has : index < frame.upvalues.size)
    : ∃ cell, upvalue frame index = pure cell := by
  unfold upvalue
  rw [Array.getElem?_eq_getElem has]
  exact ⟨_, rfl⟩

theorem upvalue_of_lacks {index : Nat} (lacks : frame.upvalues.size ≤ index)
    : upvalue frame index = malformed frame (.noUpvalue index) := by
  unfold upvalue
  rw [Array.getElem?_eq_none lacks]

/-- A word that specifies what is captured is passed. -/
theorem capture_of_specifies {word : Instruction} (found : frame.code[frame.pc]? = some word)
    (specifies : frame.Specifies frame.pc) (m : Machine)
    : ∃ made after, capture frame.past word m = .ok made after
        ∧ made.1.code = frame.code ∧ made.1.upvalues = frame.upvalues
        ∧ made.1.pc = frame.pc + 1 := by
  unfold capture
  cases specifies with
  | register there operation =>
      cases found.symm.trans there
      rw [operation]
      dsimp only
      cases frame.past.captured.lookup word.b with
      | some cell => exact ⟨(frame.past, cell), m, rfl, rfl, rfl, rfl⟩
      | none => exact ⟨_, _, rfl, rfl, rfl, rfl⟩
  | upvalue there operation has =>
      cases found.symm.trans there
      have within : word.b < frame.past.upvalues.size := has
      obtain ⟨cell, held⟩ := upvalue_of_has within
      refine ⟨(frame.past, cell), m, ?_, rfl, rfl, rfl⟩
      rw [operation]
      dsimp only
      rw [held]
      rfl

theorem capture_of_other {word : Instruction} (other : word.captures = false)
    : capture frame word = malformed frame .badDescriptor := by
  revert other
  unfold Instruction.captures capture
  cases word.operation? with
  | none => exact fun _ => rfl
  | some op =>
      cases op with
      | move | getUpval => exact nofun
      | _ => exact fun _ => rfl

theorem capture_of_misspecifies {word : Instruction} (found : frame.code[frame.pc]? = some word)
    (misspecifies : frame.Misspecifies frame.pc why) (m : Machine)
    : capture frame.past word m = .error (.failed (.malformed frame.pc why)) m := by
  cases misspecifies with
  | missing past => cases found.symm.trans past
  | other there other =>
      cases found.symm.trans there
      rw [capture_of_other other]
      rfl
  | upvalue there operation lacks =>
      cases found.symm.trans there
      have outside : frame.past.upvalues.size ≤ word.b := lacks
      unfold capture
      rw [operation]
      dsimp only
      rw [upvalue_of_lacks outside]
      rfl

/-- Where the next word specifies what is captured, the rest is captured behind it. -/
theorem captures_past (count : Nat) (specifies : frame.Specifies frame.pc) (m : Machine)
    : ∃ next after cell, next.code = frame.code ∧ next.upvalues = frame.upvalues
        ∧ next.pc = frame.pc + 1
        ∧ captures (count + 1) frame m
          = (captures count next >>= fun made => pure (made.1, cell :: made.2)) after := by
  obtain ⟨word, found⟩ : ∃ word, frame.code[frame.pc]? = some word := by
    cases specifies with
    | register found | upvalue found => exact ⟨_, found⟩
  obtain ⟨⟨next, cell⟩, after, passed, code, upvalues, pc⟩ := capture_of_specifies found specifies m
  refine ⟨next, after, cell, code, upvalues, pc, ?_⟩
  rw [captures, found]
  exact Run.bind_ok passed

/-- All words that specify what is captured are passed, by induction over them. -/
theorem captures_of_specifies {count : Nat}
    (specifies : ∀ k < count, frame.Specifies (frame.pc + k)) (m : Machine)
    : ∃ made after, captures count frame m = .ok made after := by
  induction count generalizing frame m with
  | zero => exact ⟨_, m, rfl⟩
  | succ count ih =>
      obtain ⟨next, after, cell, code, upvalues, pc, same⟩ :=
        captures_past count (specifies 0 (Nat.succ_pos count)) m
      have later : ∀ k < count, next.Specifies (next.pc + k) := by
        intro k less
        rw [pc, Nat.add_right_comm]
        exact (specifies (k + 1) (Nat.succ_lt_succ less)).congr code upvalues
      obtain ⟨made, last, passed⟩ := ih later after
      exact ⟨_, last, same.trans (Run.bind_ok passed)⟩

/-- The first word that does not specify what is captured is reported, by induction over those before
it.
-/
theorem captures_of_misspecifies {count j : Nat} (among : j < count)
    (before : ∀ k < j, frame.Specifies (frame.pc + k))
    (misspecifies : frame.Misspecifies (frame.pc + j) why) (m : Machine)
    : ∃ after, captures count frame m
        = .error (.failed (.malformed (frame.pc + j) why)) after := by
  induction j generalizing frame m count with
  | zero =>
      obtain ⟨count, rfl⟩ := Nat.exists_eq_add_of_le' among
      unfold captures
      rcases found : frame.code[frame.pc]? with _ | word
      · cases misspecifies with
        | missing => exact ⟨m, rfl⟩
        | other there | upvalue there => cases found.symm.trans there
      · exact ⟨m, Run.bind_error (capture_of_misspecifies found misspecifies m)⟩
  | succ j ih =>
      obtain ⟨count, rfl⟩ := Nat.exists_eq_add_of_le' (Nat.lt_of_le_of_lt (Nat.zero_le _) among)
      obtain ⟨next, after, cell, code, upvalues, pc, same⟩ :=
        captures_past count (before 0 (Nat.succ_pos j)) m
      have earlier : ∀ k < j, next.Specifies (next.pc + k) := by
        intro k less
        rw [pc, Nat.add_right_comm]
        exact (before (k + 1) (Nat.succ_lt_succ less)).congr code upvalues
      have there : next.Misspecifies (next.pc + j) why := by
        rw [pc, Nat.add_right_comm]
        exact misspecifies.congr code upvalues
      obtain ⟨last, failed⟩ := ih (Nat.lt_of_succ_lt_succ among) earlier there after
      rw [pc, Nat.add_right_comm] at failed
      exact ⟨last, same.trans (Run.bind_error failed)⟩

end Vm

/-- Either all words from a place on say what is captured, or there is a first that does not; by induction
over their number.
-/
theorem Frame.specifies_or (frame : Frame) (place count : Nat)
    : (∀ k < count, frame.Specifies (place + k))
      ∨ ∃ j < count, (∀ k < j, frame.Specifies (place + k))
        ∧ ∃ why, frame.Misspecifies (place + j) why := by
  induction count with
  | zero => exact .inl nofun
  | succ count ih =>
      rcases ih with all | ⟨j, among, before, misspecifies⟩
      · have last : frame.Specifies (place + count)
            ∨ ∃ why, frame.Misspecifies (place + count) why := by
          rcases found : frame.code[place + count]? with _ | word
          · exact .inr ⟨_, .missing found⟩
          · cases captures : word.captures with
            | false => exact .inr ⟨_, .other found captures⟩
            | true =>
                unfold Instruction.captures at captures
                split at captures
                · exact .inl (.register found ‹_›)
                · rename_i operation
                  rcases Nat.lt_or_ge word.b frame.upvalues.size with has | lacks
                  · exact .inl (.upvalue found operation has)
                  · exact .inr ⟨_, .upvalue found operation lacks⟩
                · cases captures
        rcases last with specifies | misspecifies
        · refine .inl fun k less => ?_
          rcases Nat.lt_succ_iff_lt_or_eq.mp less with less | rfl
          · exact all k less
          · exact specifies
        · exact .inr ⟨count, Nat.lt_succ_self _, all, misspecifies⟩
      · exact .inr ⟨j, Nat.lt_succ_of_lt among, before, misspecifies⟩

-----------------------------------------------------------------------------------------
-- Instructions that are malformed
-----------------------------------------------------------------------------------------

namespace Vm

theorem jump_of_before {offset : Int} (before : (frame.pc : Int) + offset < 0)
    : jump frame offset m = .error (.failed (.malformed frame.pc .jumpBeforeStart)) m := by
  unfold jump
  rw [if_pos before]
  rfl

theorem loopNumber_of_toNumber {r : Nat} {x : Float} (number : (frame.read r).toNumber? = some x)
    : loopNumber frame r m = .ok x m := by
  unfold loopNumber
  rw [number]
  rfl

/-- A constant is missed before anything else is done. -/
theorem execute_of_lacks {op : Opcode} {k : Nat} (operation : i.operation? = some op)
    (lacks : i.constants.find? (m.lacks frame) = some k) (invoke : Invoke)
    : execute invoke frame.past op i m
      = .error (.failed (.malformed frame.pc (.noConstant k))) m := by
  rw [Instruction.constants, operation] at lacks
  cases op with
  | loadK | getGlobal | setGlobal =>
      have lacking := List.find?_some lacks
      cases List.mem_singleton.mp (List.mem_of_find?_eq_some lacks)
      exact Run.bind_error (constant_of_lacks lacking)
  | getTable | self => exact Run.bind_error (operand_of_lacks lacks)
  | setTable | add | sub | mul | div | mod | pow | eq | lt | le => exact operands_of_lacks lacks
  | _ => cases lacks

/-- A malformed instruction fails by itself. -/
theorem execute_of_flawed {op : Opcode} (operation : i.operation? = some op)
    (flawed : frame.Flawed m i pc why) (invoke : Invoke)
    : ∃ after, execute invoke frame.past op i m = .error (.failed (.malformed pc why)) after := by
  cases flawed with
  | opcode unknown => cases operation.symm.trans unknown
  | constant lacks => exact ⟨m, execute_of_lacks operation lacks invoke⟩
  | upvalue reads lacks =>
      have outside : frame.past.upvalues.size ≤ i.b := lacks
      have failed : upvalue frame.past i.b m
          = .error (.failed (.malformed frame.pc (.noUpvalue i.b))) m := by
        rw [upvalue_of_lacks outside]
        rfl
      rcases reads with reads | reads <;> cases operation.symm.trans reads
      · exact ⟨m, Run.bind_error failed⟩
      · exact ⟨m, Run.bind_error failed⟩
  | nested closes lacks =>
      cases operation.symm.trans closes
      refine ⟨m, (Run.bind_ok (prototype_eq frame.prototype)).trans ?_⟩
      rw [lacks]
      rfl
  | @descriptor nested j why closes found among before misspecifies =>
      cases operation.symm.trans closes
      have specified : ∀ k < j, frame.past.Specifies (frame.past.pc + k) :=
        fun k less => (before k less).congr rfl rfl
      have failing : frame.past.Misspecifies (frame.past.pc + j) why := misspecifies.congr rfl rfl
      obtain ⟨after, failed⟩ := captures_of_misspecifies among specified failing m
      refine ⟨after, (Run.bind_ok (prototype_eq frame.prototype)).trans ?_⟩
      rw [found]
      exact (Run.bind_ok (prototype_eq nested)).trans (Run.bind_error failed)
  | generic generic =>
      cases operation.symm.trans generic
      exact ⟨m, rfl⟩
  | jump jumps before =>
      have fails {next : Frame} (rests : frame.past.Rests next)
          : jump next i.offset m = .error (.failed (.malformed (frame.pc + 1) .jumpBeforeStart)) m := by
        have there : next.pc = frame.pc + 1 := rests.pc
        rw [← there]
        exact jump_of_before (by rw [there]; exact before)
      cases jumps with
      | always jumps =>
          cases operation.symm.trans jumps
          exact ⟨m, fails (.refl _)⟩
      | enters enters starts limits steps =>
          cases operation.symm.trans enters
          refine ⟨m, (Run.bind_ok (loopNumber_of_toNumber starts)).trans ?_⟩
          refine (Run.bind_ok (loopNumber_of_toNumber steps)).trans ?_
          refine (Run.bind_ok (loopNumber_of_toNumber limits)).trans ?_
          exact fails (.write ..)
      | @goesOn start limit step loops starts limits steps within =>
          cases operation.symm.trans loops
          refine ⟨m, (Run.bind_ok (loopNumber_of_toNumber steps)).trans ?_⟩
          refine (Run.bind_ok (loopNumber_of_toNumber starts)).trans ?_
          refine (Run.bind_ok (loopNumber_of_toNumber limits)).trans ?_
          have on := fails ((Frame.Rests.write frame.past i.a (.number (start + step))).trans
            (.write _ (i.a + 3) (.number (start + step))))
          rw [if_pos within]
          exact on

end Vm

-----------------------------------------------------------------------------------------
-- Instructions that are not
-----------------------------------------------------------------------------------------

namespace Vm

open Instruction (constantOf)

/-- Both operands are read before anything is done with them. -/
theorem operands_of_has {b c : Nat}
    (has : (constantOf b ++ constantOf c).find? (m.lacks frame) = none)
    : ∃ left right, operand frame.past b m = .ok left m ∧ operand frame.past c m = .ok right m := by
  rw [List.find?_append, Option.or_eq_none_iff] at has
  obtain ⟨left, first⟩ := operand_of_has has.1
  obtain ⟨right, second⟩ := operand_of_has has.2
  exact ⟨left, right, first, second⟩

theorem loopNumber_ok {r : Nat} {x : Float} (ran : loopNumber frame r m = .ok x after)
    : (frame.read r).toNumber? = some x ∧ after = m := by
  unfold loopNumber at ran
  cases number : (frame.read r).toNumber? with
  | some y =>
      rw [number] at ran
      cases ran
      exact ⟨rfl, rfl⟩
  | none =>
      rw [number] at ran
      cases ran

theorem jump_of_within {offset : Int} (within : ¬(frame.pc : Int) + offset < 0)
    : Silent (jump frame offset) := by
  unfold jump
  rw [if_neg within]
  exact .pure _

variable (sound : ∀ pc why, ¬frame.Flawed m i pc why)

include sound

theorem jump_of_sound {next : Frame} (jumps : frame.Jumps i) (rests : frame.past.Rests next)
    : Silent (jump next i.offset) := by
  refine jump_of_within fun before => sound _ _ (.jump jumps ?_)
  rw [rests.pc] at before
  exact before

theorem loopEnter_of_sound (operation : i.operation? = some .forPrep)
    : loopEnter frame.past i m ≠ .error (.failed (.malformed pc why)) after := by
  refine (loopNumber_silent ..).follow fun start _ starts pc why after => ?_
  refine (loopNumber_silent ..).follow fun step _ steps pc why after => ?_
  refine (loopNumber_silent ..).follow fun limit _ limits pc why after => ?_
  have jumps : frame.Jumps i :=
    .enters operation (loopNumber_ok starts).1 (loopNumber_ok limits).1 (loopNumber_ok steps).1
  exact (jump_of_sound sound jumps (.write ..)).silent

theorem loopNext_of_sound (operation : i.operation? = some .forLoop)
    : loopNext frame.past i m ≠ .error (.failed (.malformed pc why)) after := by
  refine (loopNumber_silent ..).follow fun step _ steps pc why after => ?_
  refine (loopNumber_silent ..).follow fun start _ starts pc why after => ?_
  refine (loopNumber_silent ..).follow fun limit _ limits pc why after => ?_
  by_cases within : if 0 < step then start + step ≤ limit else limit ≤ start + step
  · have jumps : frame.Jumps i := .goesOn operation (loopNumber_ok starts).1
      (loopNumber_ok limits).1 (loopNumber_ok steps).1 within
    rw [if_pos within]
    exact (jump_of_sound sound jumps ((Frame.Rests.write ..).trans (.write ..))).silent
  · rw [if_neg within]
    nofun

theorem close_of_sound (operation : i.operation? = some .closure)
    : close frame.past i m ≠ .error (.failed (.malformed pc why)) after := by
  intro failed
  have read := (Run.bind_ok (prototype_eq frame.prototype)).symm.trans failed
  rcases found : (m.prototypes.get frame.prototype).nested[i.bx]? with _ | nested
  · exact sound _ _ (.nested operation found)
  · rw [found] at read
    rcases frame.specifies_or (frame.pc + 1) (m.prototypes.get nested).upvalues.toNat
      with all | ⟨j, among, before, why, misspecifies⟩
    · have specified : ∀ k < (m.prototypes.get nested).upvalues.toNat,
          frame.past.Specifies (frame.past.pc + k) := fun k less => (all k less).congr rfl rfl
      obtain ⟨made, last, captured⟩ := captures_of_specifies specified m
      cases ((Run.bind_ok (prototype_eq nested)).trans (Run.bind_ok captured)).symm.trans read
    · exact sound _ _ (.descriptor operation found among before misspecifies)

/-- An instruction that is not malformed does not report that it is, unless a call does that it makes.
-/
theorem execute_of_sound {op : Opcode} (operation : i.operation? = some op)
    : (Plan.execute frame.past op i m).Silent := by
  have has : i.constants.find? (m.lacks frame) = none :=
    Option.eq_none_iff_forall_ne_some.mpr fun k lacks => sound _ _ (.constant lacks)
  rw [Instruction.constants, operation] at has
  have quiet {x : Vm Frame} (silent : Silent x) : (Course.ends (x m)).Silent :=
    fun _ _ _ => silent.silent
  have after {x : Vm Frame} {f : Vm Frame} {now : Machine} (same : x m = f now) (silent : Silent f)
      : (Course.ends (x m)).Silent := by
    rw [same]
    exact fun _ _ _ => silent.silent
  cases op with
  | move | not | loadBool | loadNil | test | vararg => exact quiet (.pure _)
  | close | call | tailCall | ret => exact quiet (.pure _)
  | newTable =>
      have made : Silent (newTable >>= fun ref => pure (frame.past.write i.a (.table ref))) :=
        newTable_silent.bind fun _ => .pure _
      exact quiet made
  | unm => exact quiet ((arithmeticNumber_silent _).bind fun _ => .pure _)
  | len => exact quiet ((length_silent _).bind fun _ => .pure _)
  | concat => exact quiet ((concatenables_silent ..).bind fun _ => .pure _)
  | setList => exact quiet (setList_silent ..)
  | testSet =>
      refine quiet ?_
      unfold execute
      dsimp only
      split <;> exact .pure _
  | loadK =>
      obtain ⟨value, read⟩ := constant_of_find has
      exact after (Run.bind_ok read) (.pure _)
  | getGlobal =>
      obtain ⟨key, read⟩ := constant_of_find has
      rw [Plan.execute, Plan.bind_of_ok read]
      exact (Plan.Silent.bind (Plan.index_silent ..) fun _ => .pure _).silent m
  | setGlobal =>
      obtain ⟨key, read⟩ := constant_of_find has
      rw [Plan.execute, Plan.bind_of_ok read]
      exact (Plan.Silent.bind (Plan.assign_silent ..) fun _ => .pure _).silent m
  | getTable | self =>
      obtain ⟨key, read⟩ := operand_of_has has
      rw [Plan.execute, Plan.bind_of_ok read]
      exact (Plan.Silent.bind (Plan.index_silent ..) fun _ => .pure _).silent m
  | setTable =>
      obtain ⟨key, value, first, second⟩ := operands_of_has has
      rw [Plan.execute, Plan.bind_of_ok first, Plan.bind_of_ok second]
      exact (Plan.Silent.bind (Plan.assign_silent ..) fun _ => .pure _).silent m
  | add | sub | mul | div | mod | pow =>
      obtain ⟨left, right, first, second⟩ := operands_of_has has
      exact after ((Run.bind_ok first).trans (Run.bind_ok second))
        ((arithmeticNumber_silent _).bind fun _ => (arithmeticNumber_silent _).bind fun _ => .pure _)
  | eq =>
      obtain ⟨left, right, first, second⟩ := operands_of_has has
      exact after ((Run.bind_ok first).trans (Run.bind_ok second)) (.pure _)
  | lt | le =>
      obtain ⟨left, right, first, second⟩ := operands_of_has has
      exact after ((Run.bind_ok first).trans (Run.bind_ok second))
        ((order_silent ..).bind fun _ => .pure _)
  | getUpval =>
      have within : i.b < frame.past.upvalues.size :=
        Nat.lt_of_not_le fun lacks => sound _ _ (.upvalue (.inl operation) lacks)
      obtain ⟨cell, held⟩ := upvalue_of_has within
      refine quiet ?_
      rw [execute, held]
      exact Silent.bind (.pure _) fun _ => (readCell_silent _).bind fun _ => .pure _
  | setUpval =>
      have within : i.b < frame.past.upvalues.size :=
        Nat.lt_of_not_le fun lacks => sound _ _ (.upvalue (.inr operation) lacks)
      obtain ⟨cell, held⟩ := upvalue_of_has within
      refine quiet ?_
      rw [execute, held]
      exact Silent.bind (.pure _) fun _ => (writeCell_silent ..).bind fun _ => .pure _
  | jmp => exact quiet (jump_of_sound sound (.always operation) (.refl _))
  | forPrep => exact fun _ _ _ => loopEnter_of_sound sound operation
  | forLoop => exact fun _ _ _ => loopNext_of_sound sound operation
  | closure => exact fun _ _ _ => close_of_sound sound operation
  | tForLoop => exact absurd (.generic operation) (sound _ _)

end Vm

namespace Plan

/-- An instruction that neither calls nor returns executes within its activation. -/
theorem perform_of_inner {op : Opcode} (operation : i.operation? = some op) (uncalled : op ≠ .call)
    (tailless : op ≠ .tailCall) (stays : op ≠ .ret)
    : perform frame i = execute frame.past op i >>= fun next => pure (.next next) := by
  unfold perform
  rw [operation]
  cases op with
  | call => exact absurd rfl uncalled
  | tailCall => exact absurd rfl tailless
  | ret => exact absurd rfl stays
  | _ => rfl

theorem perform_of_sound (sound : ∀ pc why, ¬frame.Flawed m i pc why)
    : (perform frame i m).Silent := by
  cases operation : i.operation? with
  | none => exact absurd (.opcode operation) (sound _ _)
  | some op =>
      have executes := (Vm.execute_of_sound sound operation).bind
        fun next now => (Silent.pure (Vm.Flow.next next)).silent now
      by_cases outer : op = .call ∨ op = .tailCall ∨ op = .ret
      · unfold perform
        rw [operation]
        rcases outer with rfl | rfl | rfl <;> exact (Silent.pure _).silent m
      · rw [not_or, not_or] at outer
        rw [perform_of_inner operation outer.1 outer.2.1 outer.2.2]
        exact executes

theorem perform_of_flawed (flawed : frame.Flawed m i pc why) (invoke : Invoke)
    : ∃ after, (perform frame i).run invoke m = .error (.failed (.malformed pc why)) after := by
  cases operation : i.operation? with
  | none =>
      cases flawed with
      | opcode =>
          unfold perform
          rw [operation]
          exact ⟨m, rfl⟩
      | constant lacks =>
          rw [Instruction.constants, operation] at lacks
          cases lacks
      | upvalue reads => simp [operation] at reads
      | nested closes | descriptor closes | generic closes => simp [operation] at closes
      | jump jumps => cases jumps <;> simp_all
  | some op =>
      obtain ⟨after, failed⟩ := Vm.execute_of_flawed operation flawed invoke
      have inner : op ≠ .call ∧ op ≠ .tailCall ∧ op ≠ .ret := by
        refine ⟨?_, ?_, ?_⟩ <;> rintro rfl <;> cases failed
      rw [perform_of_inner operation inner.1 inner.2.1 inner.2.2, run_bind, run_execute]
      exact ⟨after, Run.bind_error failed⟩

end Plan

-----------------------------------------------------------------------------------------
-- Reports
-----------------------------------------------------------------------------------------

namespace Frame

/-- What an activation comes to in its code is malformed: there is no instruction, or one that may be
charged for and is malformed.
-/
inductive Reports (frame : Frame) (m : Machine) : Nat → Malformation → Prop
  | pastEnd (past : frame.code[frame.pc]? = none) : Reports frame m frame.pc .pastEnd
  | flawed {i charged pc why} (fetched : Vm.fetch frame m = .ok i charged)
    (flawed : frame.Flawed charged i pc why)
    : Reports frame m pc why

/-- Where a report points: at the instruction that the activation comes to, which is past the end of the
code if there is none; at the word where a descriptor should be; or, if the instruction jumps to before
the start of the code, at the index after its own.
-/
inductive Points (frame : Frame) : Nat → Malformation → Prop
  | instruction {why : Malformation} (other : why ≠ .jumpBeforeStart) : Points frame frame.pc why
  | descriptor {i j why} (found : frame.code[frame.pc]? = some i)
    (operation : i.operation? = some .closure)
    (misspecifies : frame.Misspecifies (frame.pc + 1 + j) why)
    : Points frame (frame.pc + 1 + j) why
  | jump {i : Instruction} (found : frame.code[frame.pc]? = some i) (jumps : frame.Jumps i)
    : Points frame (frame.pc + 1) .jumpBeforeStart

theorem Reports.points (reports : frame.Reports m pc why) : frame.Points pc why := by
  cases reports with
  | pastEnd => exact .instruction nofun
  | flawed fetched flawed =>
      have found := Vm.fetched_of_fetch fetched
      cases flawed with
      | opcode | constant | upvalue | nested | generic => exact .instruction nofun
      | descriptor operation _ _ _ misspecifies => exact .descriptor found operation misspecifies
      | jump jumps => exact .jump found jumps

/-- Something that the instruction of an activation calls fails: what a call instruction calls, unless
that is a closure, or the function that handles an access to a field.
-/
inductive Passes (frame : Frame) (invoke : Invoke) (m : Machine) (fault : Fault) (after : Machine)
    : Prop
  | called {next f arguments resume middle target}
    (calls : Vm.step invoke frame m = .ok (.call next f arguments resume) middle)
    (reached : Vm.resolve f middle = .ok target middle) (other : ∀ ref, target ≠ .closure ref)
    (failed : Vm.callOther invoke target arguments (some next.closure) (next.depth + 1) middle
      = .error (.failed fault) after)
    : Passes frame invoke m fault after
  | handled {i charged call now} (fetched : Vm.fetch frame m = .ok i charged)
    (makes : (Plan.perform frame i charged).Makes invoke call now)
    (failed : call.run invoke now = .error (.failed fault) after)
    : Passes frame invoke m fault after

end Frame

namespace Vm

open Silent

theorem closure_silent (ref : ClosureRef) : Silent (closure ref) :=
  .look fun _ => found_silent _

theorem checkDepth_silent (depth : Nat) : Silent (checkDepth depth) := by
  refine .look fun m => ?_
  split
  · exact .fail nofun
  · exact .pure _

/-- By induction over how many redirects are followed. -/
theorem followRedirects_silent (limit : Nat) (f : Value) : Silent (followRedirects limit f) := by
  induction limit generalizing f with
  | zero =>
      cases f with
      | closure ref =>
          rw [followRedirects]
          refine (closure_silent ref).bind fun c => ?_
          cases c.redirect with
          | none => exact .pure _
          | some next => exact .fail fun _ _ => Fault.noConfusion
      | _ => exact .pure _
  | succ limit ih =>
      cases f with
      | closure ref =>
          rw [followRedirects]
          refine (closure_silent ref).bind fun c => ?_
          cases c.redirect with
          | none => exact .pure _
          | some next => exact ih next
      | _ => exact .pure _

theorem resolve_silent (f : Value) : Silent (resolve f) :=
  .look fun _ => followRedirects_silent ..

theorem openFrame_silent (ref : ClosureRef) (arguments : List Value) (depth : Nat)
    : Silent (openFrame ref arguments depth) :=
  (closure_silent _).bind fun _ => (prototype_silent _).bind fun _ => .pure _

theorem fetch_malformed (ran : fetch frame m = .error (.failed (.malformed pc why)) after)
    : frame.Reports m pc why := by
  unfold fetch at ran
  rcases found : frame.code[frame.pc]? with _ | i
  · rw [found] at ran
    cases ran
    exact .pastEnd found
  · rw [found] at ran
    rcases charge_cases m with spent | ⟨-, charged⟩ | ⟨-, charged⟩
    · cases (Run.bind_error spent).symm.trans ran
    · cases (Run.bind_ok charged).symm.trans ran
    · cases (Run.bind_ok charged).symm.trans ran

/-- If an instruction reports malformed code, it is malformed itself, or something does that it calls. -/
theorem step_malformed (ran : step invoke frame m = .error (.failed (.malformed pc why)) after)
    : frame.Reports m pc why ∨ frame.Passes invoke m (.malformed pc why) after := by
  rw [Plan.step_eq] at ran
  rcases Run.of_bind_error ran with failed | ⟨i, charged, fetched, ran⟩
  · exact .inl (fetch_malformed failed)
  · by_cases sound : ∀ pc why, ¬frame.Flawed charged i pc why
    · obtain ⟨call, now, makes, failed⟩ := (Plan.perform_of_sound sound).of_run ran
      exact .inr (.handled fetched makes failed)
    · simp only [not_forall, not_not] at sound
      obtain ⟨place, reason, flawed⟩ := sound
      obtain ⟨last, failed⟩ := Plan.perform_of_flawed flawed invoke
      cases failed.symm.trans ran
      exact .inl (.flawed fetched flawed)

/-- What is malformed fails so, whatever calls do. -/
theorem step_of_reports (reports : frame.Reports m pc why) (invoke : Invoke)
    : ∃ after, step invoke frame m = .error (.failed (.malformed pc why)) after := by
  rw [Plan.step_eq]
  cases reports with
  | pastEnd past =>
      refine ⟨m, Run.bind_error ?_⟩
      unfold fetch
      rw [past]
      rfl
  | flawed fetched flawed =>
      obtain ⟨after, failed⟩ := Plan.perform_of_flawed flawed invoke
      exact ⟨after, (Run.bind_ok fetched).trans failed⟩

/-- An instruction fails by itself as malformed exactly where it is. -/
theorem reports_iff (frame : Frame) (m : Machine) (pc : Nat) (why : Malformation)
    : frame.Reports m pc why
      ↔ ∀ invoke, ∃ after, step invoke frame m = .error (.failed (.malformed pc why)) after := by
  refine ⟨step_of_reports, fun fails => ?_⟩
  obtain ⟨after, failed⟩ := fails fun _ _ _ _ => exhausted
  rcases step_malformed failed with reports | passes
  · exact reports
  · -- Calls that come to nothing report nothing.
    cases passes with
    | called calls => cases calls.symm.trans failed
    | handled _ _ failed => cases failed

/-- A stack that reports malformed code does at the instruction of its innermost activation. -/
theorem advance_malformed {top : Layer} {callers : List Layer}
    (ran : advance invoke top callers m = .error (.failed (.malformed pc why)) after)
    : top.frame.Reports m pc why ∨ top.frame.Passes invoke m (.malformed pc why) after := by
  rcases Run.of_bind_error ran with failed | ⟨flow, middle, stepped, ran⟩
  · exact step_malformed failed
  · cases flow with
    | next | finish => cases ran
    | call next f arguments resume =>
        rcases Run.of_bind_error ran with failed | ⟨⟨⟩, now, checked, ran⟩
        · exact absurd failed (checkDepth_silent _).silent
        cases (checkDepth_looks _).ok checked
        rcases Run.of_bind_error ran with failed | ⟨target, now, reached, ran⟩
        · exact absurd failed (resolve_silent _).silent
        cases (resolve_looks _).ok reached
        cases target with
        | closure ref => exact absurd ran ((openFrame_silent ..).bind fun _ => .pure _).silent
        | _ =>
            rcases Run.of_bind_error ran with failed | ⟨_, _, _, returns⟩
            · exact .inr (.called stepped reached nofun failed)
            · cases returns

/-- A run that fails comes to an instruction that does, by induction over the fuel. -/
theorem runFrames_failed {fuel : Nat} {top : Layer} {callers : List Layer} {fault : Fault}
    (ran : runFrames invoke fuel top callers m = .error (.failed fault) after)
    : ∃ here below now,
        Relation.ReflTransGen (Onward invoke) ((top, callers), m) ((here, below), now)
          ∧ advance invoke here below now = .error (.failed fault) after := by
  induction fuel generalizing top callers m with
  | zero => cases ran
  | succ fuel ih =>
      rcases Run.of_bind_error ran with failed | ⟨results | next, middle, stepped, ran⟩
      · exact ⟨top, callers, m, .refl, failed⟩
      · cases ran
      · have onward : Onward invoke ((top, callers), m) (next, middle) := stepped
        obtain ⟨here, below, now, comes, failed⟩ := ih ran
        exact ⟨here, below, now, .head onward comes, failed⟩

/-- A call that reports malformed code has opened an activation whose run does, or has called something
that is no closure.
-/
theorem call_malformed {fuel : Nat} {f : Value} {arguments : List Value} {caller : Option ClosureRef}
    {depth : Nat} (ran : call (fuel + 1) f arguments caller depth m
      = .error (.failed (.malformed pc why)) after)
    : ∃ target, resolve f m = .ok target m
        ∧ ((∃ ref opened, target = .closure ref ∧ openFrame ref arguments depth m = .ok opened m
              ∧ runFrames (call fuel) fuel ⟨opened, .forward⟩ [] m
                = .error (.failed (.malformed pc why)) after)
            ∨ (∀ ref, target ≠ .closure ref)
              ∧ callOther (call fuel) target arguments caller depth m
                = .error (.failed (.malformed pc why)) after) := by
  rcases Run.of_bind_error ran with failed | ⟨⟨⟩, now, checked, ran⟩
  · exact absurd failed (checkDepth_silent _).silent
  cases (checkDepth_looks _).ok checked
  rcases Run.of_bind_error ran with failed | ⟨target, now, reached, ran⟩
  · exact absurd failed (resolve_silent _).silent
  cases (resolve_looks _).ok reached
  refine ⟨target, reached, ?_⟩
  cases target with
  | closure ref =>
      rcases Run.of_bind_error ran with failed | ⟨opened, now, opens, ran⟩
      · exact absurd failed (openFrame_silent ..).silent
      cases (openFrame_looks ..).ok opens
      exact .inl ⟨ref, opened, rfl, opens, ran⟩
  | _ => exact .inr ⟨nofun, ran⟩

/-- Reports of malformed code, where calls are made by `invoke`. -/
structure Reporting (invoke : Invoke) : Prop where
  /-- An instruction fails as malformed, whatever it calls, exactly where it is. -/
  instruction (frame : Frame) (m : Machine) (pc : Nat) (why : Malformation)
    : frame.Reports m pc why
      ↔ ∀ calls : Invoke, ∃ after, step calls frame m = .error (.failed (.malformed pc why)) after
  place {frame : Frame} {m : Machine} {pc : Nat} {why : Malformation}
    (reports : frame.Reports m pc why)
    : frame.Points pc why
  /-- A stack that ends so has come to an activation whose instruction is malformed, or calls something
  that ends so.
  -/
  stack {fuel : Nat} {top : Layer} {callers : List Layer} {m after : Machine} {pc : Nat}
    {why : Malformation}
    (ran : runFrames invoke fuel top callers m = .error (.failed (.malformed pc why)) after)
    : ∃ here below now,
        Relation.ReflTransGen (Onward invoke) ((top, callers), m) ((here, below), now)
          ∧ (here.frame.Reports now pc why ∨ here.frame.Passes invoke now (.malformed pc why) after)
  /-- A call that ends so has run a stack that does, or has called something that is no closure. -/
  call {fuel : Nat} {f : Value} {arguments : List Value} {caller : Option ClosureRef} {depth : Nat}
    {m after : Machine} {pc : Nat} {why : Malformation}
    (ran : call (fuel + 1) f arguments caller depth m = .error (.failed (.malformed pc why)) after)
    : ∃ target, resolve f m = .ok target m
        ∧ ((∃ ref opened, target = .closure ref ∧ openFrame ref arguments depth m = .ok opened m
              ∧ runFrames (Vm.call fuel) fuel ⟨opened, .forward⟩ [] m
                = .error (.failed (.malformed pc why)) after)
            ∨ (∀ ref, target ≠ .closure ref)
              ∧ callOther (Vm.call fuel) target arguments caller depth m
                = .error (.failed (.malformed pc why)) after)

/-- Malformed code is reported where it is, but for jumps to before its start. -/
theorem reports_culprits (invoke : Invoke) : Reporting invoke where
  instruction := reports_iff
  place := Frame.Reports.points
  stack ran := by
    obtain ⟨here, below, now, comes, failed⟩ := runFrames_failed ran
    exact ⟨here, below, now, comes, advance_malformed failed⟩
  call := call_malformed

end Vm
end HookMachine
