import HookMachine.Proofs.Bounds.Course
import HookMachine.Proofs.Bounds.Instructions
import HookMachine.Proofs.Deeds.Scope

/-!
Operations of running code by the judgement on scopes. None of them needs a deed, except those that
change the metatable or the protection of a table.
-/

namespace HookMachine

open Run (Looks)
open Scope (Keeps Kept)

variable {s : Scope}

theorem Action.refuse_keeps {α : Type} {post : α → Prop} (refusal : Refusal)
    : s.Keeps (Action.refuse refusal : Action α) post :=
  .fail _

namespace Vm

/-- A change that only other parts of a machine show. -/
theorem beside_keeps {ε : Type} {change : Machine → Machine}
    (beside : ∀ m : Machine, m.Beside (change m))
    : s.Keeps (modify change : Run ε Unit) :=
  .modify fun m => .beside (beside m)

theorem besideGet_keeps {ε α : Type} {change : Machine → α × Machine}
    (beside : ∀ m : Machine, m.Beside (change m).2)
    : s.Keeps (modifyGet change : Run ε α) :=
  .modifyGet fun m => .beside (beside m)

-----------------------------------------------------------------------------------------
-- Looking at the machine
-----------------------------------------------------------------------------------------

theorem found_looks {α : Type} (result : Except Miss α) : Looks (found result) := by
  cases result with
  | ok value => exact .pure value
  | error miss => exact .fail _

theorem table_looks (ref : TableRef) : Looks (table ref) :=
  .andThen .get fun _ => found_looks _

/-- A table that was looked up is there. -/
theorem get_of_table {ref : TableRef} {t : Table} {m after : Machine}
    (ran : table ref m = .ok t after)
    : m.heap.tables.get ref.handle = .ok t := by
  rcases found : m.heap.tables.get ref.handle with miss | held
  · rw [table_of_miss found] at ran
    cases ran
  · rw [table_of_get found] at ran
    cases ran
    rfl

theorem closure_looks (ref : ClosureRef) : Looks (closure ref) :=
  .andThen .get fun _ => found_looks _

theorem native_looks (ref : NativeRef) : Looks (native ref) :=
  .andThen .get fun _ => found_looks _

theorem prototype_looks (ref : PrototypeRef) : Looks (prototype ref) :=
  .andThen .get fun _ => .pure _

theorem readCell_looks (cell : CellRef) : Looks (readCell cell) :=
  .andThen .get fun _ => .pure _

theorem checkOwner_looks (value : Value) : Looks (checkOwner value) := by
  refine .andThen .get fun m => ?_
  split
  · exact .pure ()
  · exact .fail _

theorem checkKey_looks (key : Value) : Looks (checkKey key) := by
  unfold checkKey
  split
  · exact .fail _
  · split
    · exact .fail _
    · exact .pure ()
  · exact .pure ()

theorem rawGet_looks (ref : TableRef) (key : Value) : Looks (rawGet ref key) :=
  (table_looks ref).andThen fun _ => .pure _

theorem metatable_looks (value : Value) : Looks (metatable value) := by
  unfold metatable
  split
  · exact (table_looks _).andThen fun _ => .pure _
  · exact .pure none

theorem functionName_looks (f : Value) : Looks (functionName f) := by
  unfold functionName
  split
  · exact (closure_looks _).andThen fun _ => (prototype_looks _).andThen fun _ => .pure _
  · exact (native_looks _).andThen fun _ => .pure _
  · exact .pure none

theorem handler_looks (t : Table) (name : String) : Looks (handler t name) := by
  unfold handler
  split
  · exact .pure _
  · exact (table_looks _).andThen fun _ => .pure _

theorem metamethod_looks (value : Value) (name : String) : Looks (metamethod value name) := by
  unfold metamethod
  split
  · exact (table_looks _).andThen fun t => handler_looks t name
  · exact .pure _

theorem writeHandler_looks (t : Table) (key : Value) : Looks (writeHandler t key) := by
  unfold writeHandler
  split
  · exact .pure _
  · exact handler_looks t _

theorem checkDepth_looks (depth : Nat) : Looks (checkDepth depth) := by
  refine .andThen .get fun m => ?_
  split
  · exact .fail _
  · exact .pure ()

/-- Redirects are followed by induction over how many may be. -/
theorem followRedirects_looks (limit : Nat) (f : Value) : Looks (followRedirects limit f) := by
  induction limit generalizing f with
  | zero =>
      unfold followRedirects
      split
      · refine (closure_looks _).andThen fun c => ?_
        split
        · exact .pure _
        · exact .fail _
      · exact .pure _
  | succ limit ih =>
      unfold followRedirects
      split
      · refine (closure_looks _).andThen fun c => ?_
        split
        · exact .pure _
        · exact ih _
      · exact .pure _

theorem resolve_looks (f : Value) : Looks (resolve f) :=
  .andThen .get fun _ => followRedirects_looks _ f

theorem openFrame_looks (ref : ClosureRef) (arguments : List Value) (depth : Nat)
    : Looks (openFrame ref arguments depth) :=
  (closure_looks ref).andThen fun _ => (prototype_looks _).andThen fun _ => .pure _

-----------------------------------------------------------------------------------------
-- Changing tables
-----------------------------------------------------------------------------------------

/-- A table that is looked up is the one that is changed. -/
theorem updateTable_kept {m : Machine} {ref : TableRef} {change : Table → Table}
    (changes : s.Change m { m with heap.tables := m.heap.tables.modify ref.handle change })
    : s.Kept m (fun _ _ => True) (updateTable ref change m) := by
  rcases found : m.heap.tables.get ref.handle with miss | t
  · rw [updateTable, Run.bind_error (table_of_miss found)]
    exact .refl
  · rw [updateTable, Run.bind_ok (table_of_get found)]
    exact ⟨.single changes, trivial⟩

/-- What is done with a table that is looked up is done in the machine that has it. -/
theorem tableThen_keeps {α : Type} {post : α → Prop} {ref : TableRef} {f : Table → Vm α}
    (rest : ∀ m t, m.heap.tables.get ref.handle = .ok t → s.Kept m (fun a _ => post a) (f t m))
    : s.Keeps (table ref >>= f) post := by
  refine ⟨fun m _ => ?_⟩
  rcases found : m.heap.tables.get ref.handle with miss | t
  · rw [Run.bind_error (table_of_miss found)]
    exact .refl
  · rw [Run.bind_ok (table_of_get found)]
    exact rest m t found

theorem newTable_keeps : s.Keeps newTable fun ref => s.Fresh ref := by
  refine ⟨fun m precedes => ⟨.single .made, ?_⟩⟩
  cases there : s.origin.heap.isLive (.table ⟨(m.heap.tables.insert {}).1⟩) with
  | false => exact there
  | true =>
      obtain ⟨t, found⟩ := Arena.contains_iff.mp (precedes _ there)
      exact absurd found (Arena.get_insert_fresh m.heap.tables {} t)

theorem rawSet_keeps {ref : TableRef} (key value : Value)
    (allowed : s.Fresh ref ∨ s.allows (.write ref))
    : s.Keeps (rawSet ref key value) := by
  refine (checkKey_looks key).keeps.andThen fun _ => (checkOwner_looks value).keeps.andThen fun _ => ?_
  refine tableThen_keeps fun m t found => ?_
  split
  · exact .refl
  · rename_i writable
    have writable : t.readOnly = false := by simpa using writable
    exact updateTable_kept (.written found writable (Table.refills_set key value) allowed)

theorem setMetatable_keeps {ref : TableRef} (metatable : Option TableRef)
    (allowed : s.Fresh ref ∨ s.allows (.attach ref))
    : s.Keeps (setMetatable ref metatable) := by
  have attached : s.Keeps (updateTable ref fun t => { t with metatable }) :=
    ⟨fun _ _ => updateTable_kept (.attached allowed)⟩
  unfold setMetatable
  split
  · exact (table_looks _).keeps.andThen fun _ => attached
  · exact attached

theorem setReadOnly_keeps {ref : TableRef} {on : Bool}
    (allowed : s.Fresh ref ∨ s.allows (.shield ref on))
    : s.Keeps (setReadOnly ref on) :=
  ⟨fun _ _ => updateTable_kept (.shielded allowed)⟩

-----------------------------------------------------------------------------------------
-- Changing other parts of the machine
-----------------------------------------------------------------------------------------

theorem updateClosure_keeps (ref : ClosureRef) {change : Closure → Closure}
    (same : ∀ c, (change c).environment = c.environment)
    : s.Keeps (updateClosure ref change) := by
  refine (closure_looks ref).keeps.andThen fun _ => beside_keeps fun m => ?_
  refine ⟨rfl, rfl, rfl, rfl, rfl, rfl, rfl, rfl, rfl, rfl, fun other c found => ?_⟩
  refine ⟨_, Arena.get_modify.mpr ⟨c, found, rfl⟩, ?_⟩
  split
  · exact same c
  · rfl

theorem homes_insert (m : Machine) (c : Closure)
    : m.Homes { m with heap.closures := (m.heap.closures.insert c).2 } :=
  fun _ other found => ⟨other, Arena.get_insert_of_get c found, rfl⟩

theorem newClosure_keeps (c : Closure) : s.Keeps (newClosure c) :=
  besideGet_keeps fun m =>
    ⟨rfl, rfl, rfl, rfl, rfl, rfl, rfl, rfl, rfl, rfl, homes_insert m c⟩

theorem newNative_keeps (n : Native) : s.Keeps (newNative n) :=
  besideGet_keeps fun _ => ⟨rfl, rfl, rfl, rfl, rfl, rfl, rfl, rfl, rfl, rfl, .refl _⟩

theorem createNative_keeps (n : Native) : s.Keeps (createNative n) :=
  (Keeps.forM (fun _ => (checkOwner_looks _).keeps) n.bound).andThen fun _ => newNative_keeps n

theorem newCell_keeps (value : Value) : s.Keeps (newCell value) :=
  besideGet_keeps fun _ => ⟨rfl, rfl, rfl, rfl, rfl, rfl, rfl, rfl, rfl, rfl, .refl _⟩

theorem writeCell_keeps (cell : CellRef) (value : Value) : s.Keeps (writeCell cell value) :=
  beside_keeps fun _ => ⟨rfl, rfl, rfl, rfl, rfl, rfl, rfl, rfl, rfl, rfl, .refl _⟩

theorem addPrototype_keeps (allowed : s.allows .program) (p : Prototype)
    : s.Keeps (addPrototype p) :=
  .modifyGet fun _ => .programmed allowed

theorem newCells_keeps (count : Nat) : s.Keeps (newCells count) := by
  induction count with
  | zero => exact .pure trivial
  | succ count ih => exact (newCell_keeps _).andThen fun _ => ih.andThen fun _ => .pure trivial

theorem instantiate_keeps (ref : PrototypeRef) (environment : Option TableRef)
    : s.Keeps (instantiate ref environment) :=
  (prototype_looks ref).keeps.andThen fun _ => (newCells_keeps _).andThen fun _ =>
    .andThen .get fun _ => newClosure_keeps _

theorem clone_keeps (f : Value) : s.Keeps (clone f) := by
  refine (checkOwner_looks f).keeps.andThen fun _ => ?_
  split
  · exact (closure_looks _).keeps.andThen fun _ => (newClosure_keeps _).andThen fun _ => .pure trivial
  · exact (native_looks _).keeps.andThen fun _ => (newNative_keeps _).andThen fun _ => .pure trivial
  · exact .pure trivial

theorem setRedirect_keeps (ref : ClosureRef) (target : Option Value)
    : s.Keeps (setRedirect ref target) := by
  unfold setRedirect
  split
  · exact (checkOwner_looks _).keeps.andThen fun _ => updateClosure_keeps ref fun _ => rfl
  · exact updateClosure_keeps ref fun _ => rfl

theorem retain_keeps (value : Value) : s.Keeps (retain value) :=
  (checkOwner_looks value).keeps.andThen fun _ =>
    besideGet_keeps fun _ => ⟨rfl, rfl, rfl, rfl, rfl, rfl, rfl, rfl, rfl, rfl, .refl _⟩

theorem release_keeps (slot : Handle) : s.Keeps (release slot) :=
  besideGet_keeps fun _ => ⟨rfl, rfl, rfl, rfl, rfl, rfl, rfl, rfl, rfl, rfl, .refl _⟩

theorem hold_keeps (value : Value) : s.Keeps (hold value) fun guard => guard.value = value := by
  refine (checkOwner_looks value).keeps.andThen fun _ => ⟨fun m _ => ⟨?_, rfl⟩⟩
  exact .single (.beside (m.beside_hold value))

/-- A guard is taken while others are held, which are given up if that fails. -/
theorem holdAmong_keeps (value : Value) {undo : Machine → Machine}
    (beside : ∀ m : Machine, m.Beside (undo m))
    : s.Keeps (Run.onHalt (Vm.hold value) undo : Action Guard) fun guard => guard.value = value :=
  (hold_keeps value).lift.onHalt beside

-----------------------------------------------------------------------------------------
-- Operands
-----------------------------------------------------------------------------------------

variable (frame : Frame)

theorem constant_looks (k : Nat) : Looks (constant frame k) := by
  refine (prototype_looks _).andThen fun p => ?_
  split
  · exact .pure _
  · exact .fail _

theorem operand_looks (field : Nat) : Looks (operand frame field) := by
  unfold operand
  split
  · exact constant_looks frame _
  · exact .pure _

theorem upvalue_looks (index : Nat) : Looks (upvalue frame index) := by
  unfold upvalue
  split
  · exact .pure _
  · exact .fail _

theorem loopNumber_looks (r : Nat) : Looks (loopNumber frame r) := by
  unfold loopNumber
  dsimp only
  split
  · exact .pure _
  · exact .fail _

theorem arithmeticNumber_looks (value : Value) : Looks (arithmeticNumber value) := by
  unfold arithmeticNumber
  split
  · exact .pure _
  · exact .fail _

theorem order_looks (left right : Value) : Looks (order left right) := by
  unfold order
  split
  · split
    · exact .pure Ordering.lt
    · split
      · exact .pure Ordering.eq
      · split
        · exact .pure Ordering.gt
        · exact .fail _
  · exact .pure (compare _ _)
  · exact .fail _

theorem concatenable_looks (value : Value) : Looks (concatenable value) := by
  unfold concatenable
  split
  · exact .pure _
  · exact .pure _
  · exact .fail _

theorem length_looks (value : Value) : Looks (length value) := by
  unfold length
  split
  · exact .pure _
  · exact (table_looks _).andThen fun _ => .pure _
  · exact .fail _

theorem jump_looks (offset : Int) : Looks (jump frame offset) := by
  unfold jump
  dsimp only
  split
  · exact .fail _
  · exact .pure _

-----------------------------------------------------------------------------------------
-- Single instructions
-----------------------------------------------------------------------------------------

theorem capture_keeps (descriptor : Instruction) : s.Keeps (capture frame descriptor) := by
  unfold capture
  split
  · split
    · exact .pure trivial
    · exact (newCell_keeps _).andThen fun _ => .pure trivial
  · exact (upvalue_looks frame _).keeps.andThen fun _ => .pure trivial
  · exact .fail _

theorem captures_keeps (count : Nat) : s.Keeps (captures count frame) := by
  induction count generalizing frame with
  | zero => exact .pure trivial
  | succ count ih =>
      unfold captures
      split
      · exact .fail _
      · exact (capture_keeps _ _).andThen fun first => (ih first.1).andThen fun _ => .pure trivial

theorem close_keeps (i : Instruction) : s.Keeps (close frame i) := by
  refine (prototype_looks _).keeps.andThen fun p => ?_
  split
  · exact .fail _
  · refine (prototype_looks _).keeps.andThen fun nested => (captures_keeps frame _).andThen fun _ => ?_
    exact (newClosure_keeps _).andThen fun _ => .pure trivial

theorem setList_keeps (i : Instruction)
    (allowed : ∀ ref, frame.read i.a = .table ref → s.allows (.write ref))
    : s.Keeps (setList frame i) := by
  unfold setList
  split
  · rename_i ref target
    refine tableThen_keeps fun m t found => ?_
    split
    · exact .refl
    · rename_i writable
      have writable : t.readOnly = false := by simpa using writable
      have refills := Table.refills_storeList ((i.c - 1) * listBatch) (frame.span (i.a + 1) (i.b + 1))
      have written : s.Change m _ := .written found writable refills (.inr (allowed ref target))
      exact (updateTable_kept written).bind fun _ _ _ _ => ⟨.refl, trivial⟩
  · exact .fail _

theorem loopEnter_keeps (i : Instruction) : s.Keeps (loopEnter frame i) :=
  (loopNumber_looks frame _).keeps.andThen fun _ => (loopNumber_looks frame _).keeps.andThen fun _ =>
    (loopNumber_looks frame _).keeps.andThen fun _ => (jump_looks _ _).keeps

theorem loopNext_keeps (i : Instruction) : s.Keeps (loopNext frame i) := by
  refine (loopNumber_looks frame _).keeps.andThen fun step => ?_
  refine (loopNumber_looks frame _).keeps.andThen fun index => ?_
  refine (loopNumber_looks frame _).keeps.andThen fun limit => ?_
  dsimp only
  split <;> split
  · exact (jump_looks _ _).keeps
  · exact .pure trivial
  · exact (jump_looks _ _).keeps
  · exact .pure trivial

/-- The instructions that reach no metamethod. -/
theorem execute_keeps {invoke : Invoke} {op : Opcode} (aside : op ∉ fieldOperations)
    (i : Instruction)
    (lists : op = .setList → ∀ ref, frame.read i.a = .table ref → s.allows (.write ref))
    : s.Keeps (execute invoke frame op i) := by
  have operands (use : Value → Value → Vm Frame) (uses : ∀ left right, s.Keeps (use left right))
      : s.Keeps (do use (← operand frame i.b) (← operand frame i.c)) :=
    (operand_looks frame _).keeps.andThen fun left => (operand_looks frame _).keeps.andThen fun right =>
      uses left right
  have arithmetic (op : Opcode)
      : s.Keeps (do
          let left ← operand frame i.b
          let right ← operand frame i.c
          let a ← arithmeticNumber left
          let b ← arithmeticNumber right
          return frame.write i.a (.number (arithmetic op a b))) :=
    operands _ fun _ _ => (arithmeticNumber_looks _).keeps.andThen fun _ =>
      (arithmeticNumber_looks _).keeps.andThen fun _ => .pure trivial
  cases op with
  | getGlobal | setGlobal | getTable | setTable | self => simp [fieldOperations] at aside
  | move | not | loadBool | loadNil | test | vararg | close | call | tailCall | ret =>
      exact .pure trivial
  | loadK => exact (constant_looks frame _).keeps.andThen fun _ => .pure trivial
  | getUpval =>
      exact (upvalue_looks frame _).keeps.andThen fun _ => (readCell_looks _).keeps.andThen fun _ =>
        .pure trivial
  | setUpval =>
      exact (upvalue_looks frame _).keeps.andThen fun _ => (writeCell_keeps _ _).andThen fun _ =>
        .pure trivial
  | newTable => exact newTable_keeps.andThen fun _ => .pure trivial
  | add | sub | mul | div | mod | pow => exact arithmetic _
  | unm => exact (arithmeticNumber_looks _).keeps.andThen fun _ => .pure trivial
  | len => exact (length_looks _).keeps.andThen fun _ => .pure trivial
  | concat => exact (Keeps.mapM (fun _ => (concatenable_looks _).keeps) _).andThen fun _ => .pure trivial
  | jmp => exact (jump_looks frame _).keeps
  | eq => exact operands _ fun _ _ => .pure trivial
  | lt | le => exact operands _ fun _ _ => (order_looks _ _).keeps.andThen fun _ => .pure trivial
  | testSet =>
      unfold execute
      dsimp only
      split
      · exact .pure trivial
      · exact .pure trivial
  | forLoop => exact loopNext_keeps frame i
  | forPrep => exact loopEnter_keeps frame i
  | setList => exact setList_keeps frame i (lists rfl)
  | closure => exact close_keeps frame i
  | tForLoop => exact .fail _

end Vm

-----------------------------------------------------------------------------------------
-- Where writes end
-----------------------------------------------------------------------------------------

/-- Writing the key into an object comes down to writing into the table at `ref`, after at most so
many tables.
-/
inductive Machine.Delivers (m : Machine) (key : Value) (ref : TableRef) : Nat → Value → Prop
  | ends {limit t} (found : m.heap.tables.get ref.handle = .ok t)
    (direct : Vm.writeHandler t key m = .ok .nil m)
    : m.Delivers key ref (limit + 1) (.table ref)
  | passes {limit via t next} (found : m.heap.tables.get via.handle = .ok t)
    (handled : Vm.writeHandler t key m = .ok next m) (some : next.isNil = false)
    (object : next.isFunction = false) (rest : m.Delivers key ref limit next)
    : m.Delivers key ref (limit + 1) (.table via)

variable {m after : Machine}

/-- A handler is looked up in the tables alone. -/
theorem Vm.writeHandler_of_tables {t : Table} {key next : Value}
    (same : after.heap.tables = m.heap.tables) (handled : writeHandler t key m = .ok next m)
    : writeHandler t key after = .ok next after := by
  unfold writeHandler at handled ⊢
  by_cases known : (t.get? key).isSome = true
  · rw [if_pos known] at handled ⊢
    cases handled
    rfl
  · rw [if_neg known] at handled ⊢
    unfold handler at handled ⊢
    cases attached : t.metatable with
    | none =>
        rw [attached] at handled
        cases handled
        rfl
    | some mt =>
        rw [attached] at handled
        rcases found : m.heap.tables.get mt.handle with miss | held
        · cases (Run.bind_error (table_of_miss found)).symm.trans handled
        · cases (Run.bind_ok (table_of_get found)).symm.trans handled
          rw [← same] at found
          exact Run.bind_ok (table_of_get found)

/-- A write ends in the same table wherever the tables are the same. -/
theorem Machine.Delivers.of_tables {key object : Value} {ref : TableRef} {limit : Nat}
    (delivers : m.Delivers key ref limit object) (same : after.heap.tables = m.heap.tables)
    : after.Delivers key ref limit object := by
  induction delivers with
  | ends found direct =>
      rw [← same] at found
      exact .ends found (Vm.writeHandler_of_tables same direct)
  | passes found handled some object _ ih =>
      rw [← same] at found
      exact .passes found (Vm.writeHandler_of_tables same handled) some object ih

end HookMachine
