import HookMachine.Assembler
import HookMachine.Proofs.Execution.Relays
import HookMachine.Proofs.Instruction.Words
import HookMachine.Proofs.Sharing.Constants

/-!
What an assembled instruction does is what was asked for as long as it fits into the fields of its word.
Fields keep the low bits of what is put into them: of the position of a constant the low 8 in an operand
and the low 18 in a load, and of a count the low 9, where a zero leaves the end of a list open.
-/

namespace HookMachine

-----------------------------------------------------------------------------------------
-- Operands for constants
-----------------------------------------------------------------------------------------

namespace Instruction

variable (k : Nat)

/-- The operand for a constant has the low bits of its position below the bit that marks it. -/
theorem toNat_constantOperand : (constantOperand k).toNat = k % 2 ^ 8 + 2 ^ 8 := by
  have low : (k.toUInt16 &&& 0xff).toNat = k % 2 ^ 8 := by
    rw [UInt16.toNat_and, Nat.toUInt16_eq, UInt16.toNat_ofNat']
    refine (Nat.and_two_pow_sub_one_eq_mod _ 8).trans ?_
    omega
  rw [constantOperand, UInt16.toNat_or, low, Nat.or_comm]
  exact Nat.or_two_pow_eq_add_of_lt (Nat.mod_lt _ (by decide))

example : constantOperand 256 = constantOperand 0 := by decide

/-- A field that such an operand is put into is marked and holds those bits. -/
theorem constantOperand_field
    : (constantOperand k).toNat % 2 ^ 9 &&& 0x100 ≠ 0
      ∧ (constantOperand k).toNat % 2 ^ 9 &&& 0xff = k % 2 ^ 8 := by
  have small := Nat.mod_lt k (show 0 < 2 ^ 8 by decide)
  rw [toNat_constantOperand, Nat.mod_eq_of_lt (by omega)]
  refine ⟨fun unmarked => ?_, ?_⟩
  · have unmarked : k % 2 ^ 8 + 2 ^ 8 &&& 2 ^ 8 = 0 := unmarked
    have bit : Nat.testBit ((k % 2 ^ 8 ||| 2 ^ 8) &&& 2 ^ 8) 8 = true := by
      rw [Nat.testBit_and, Nat.testBit_or, Nat.testBit_two_pow_self, Bool.or_true, Bool.and_true]
    rw [Nat.or_two_pow_eq_add_of_lt small, unmarked] at bit
    cases bit
  · refine (Nat.and_two_pow_sub_one_eq_mod _ 8).trans ?_
    omega

end Instruction

-----------------------------------------------------------------------------------------
-- Assembling item by item
-----------------------------------------------------------------------------------------

/-- A value stands for another: it is equal to it, or the same. Only a NaN is the same without being
equal.
-/
def Value.StandsFor (value asked : Value) : Prop :=
  (value == asked) = true ∨ value = asked

namespace Assembler

/-- What can be added to a prototype under construction. -/
inductive Item where
  | constant (value : Value)
  | nested (ref : PrototypeRef)
  | emit (i : Instruction)
  | load (a : UInt8) (value : Value)
  | getGlobal (a : UInt8) (name : String)
  | setGlobal (a : UInt8) (name : String)
  | call (a : UInt8) (arguments results : UInt16)
  | ret (a : UInt8) (count : UInt16)

/-- Adds an item. -/
def Item.add : Item → Assembler Nat
  | .constant value => Assembler.constant value
  | .nested ref => Assembler.nested ref
  | .emit i => Assembler.emit i
  | .load a value => Assembler.load a value
  | .getGlobal a name => Assembler.getGlobal a name
  | .setGlobal a name => Assembler.setGlobal a name
  | .call a arguments results => Assembler.call a arguments results
  | .ret a count => Assembler.ret a count

/-- Adds items one after the other. -/
def addAll : List Item → Assembler Unit
  | [] => return
  | item :: rest => do
      discard item.add
      addAll rest

/-- The prototype under construction after items. -/
def partly (start : Prototype) (items : List Item) : Prototype :=
  ((addAll items).run start).2

/-- The position that the assembler answers with for an item added after others. -/
def answer (start : Prototype) (earlier : List Item) (item : Item) : Nat :=
  (item.add.run (partly start earlier)).1

/-- The prototype that items assemble. -/
def built (start : Prototype) (items : List Item) : Prototype :=
  assemble start (addAll items)

/-- Code and constants stay where they are. -/
structure Extends (p q : Prototype) : Prop where
  code {place : Nat} {i : Instruction} : p.code[place]? = some i → q.code[place]? = some i
  constants {place : Nat} {value : Value}
    : p.constants[place]? = some value → q.constants[place]? = some value

variable {p q r : Prototype} {start : Prototype} {earlier later items : List Item} {item : Item}
  {value : Value} {i : Instruction}

theorem Extends.refl (p : Prototype) : Extends p p :=
  ⟨id, id⟩

theorem Extends.trans (first : Extends p q) (second : Extends q r) : Extends p r :=
  ⟨fun held => second.code (first.code held), fun held => second.constants (first.constants held)⟩

theorem getElem?_push_of_some {α : Type} {xs : Array α} {place : Nat} {x y : α}
    (held : xs[place]? = some x)
    : (xs.push y)[place]? = some x := by
  obtain ⟨within, -⟩ := Array.getElem?_eq_some_iff.mp held
  rw [Array.getElem?_push, if_neg (Nat.ne_of_lt within), held]

/-- A constant is found, or it is added behind the others. -/
theorem constant_run (value : Value) (p : Prototype)
    : (∃ index, p.constants.findIdx? (· == value) = some index
        ∧ (constant value).run p = (index, p))
      ∨ p.constants.findIdx? (· == value) = none
        ∧ (constant value).run p
          = (p.constants.size, { p with constants := p.constants.push value }) := by
  cases found : p.constants.findIdx? (· == value) with
  | some index => exact .inl ⟨index, rfl, by simp [constant, found]; rfl⟩
  | none => exact .inr ⟨rfl, by simp [constant, found]; rfl⟩

theorem extends_constant (value : Value) (p : Prototype) : Extends p ((constant value).run p).2 := by
  obtain ⟨index, -, ran⟩ | ⟨-, ran⟩ := constant_run value p
  · rw [ran]
    exact .refl p
  · rw [ran]
    exact ⟨id, getElem?_push_of_some⟩

theorem extends_emit (i : Instruction) (p : Prototype) : Extends p ((emit i).run p).2 :=
  ⟨getElem?_push_of_some, id⟩

/-- Every item extends what is there. -/
theorem Item.extends_add (item : Item) (p : Prototype) : Extends p (item.add.run p).2 := by
  cases item with
  | constant value => exact extends_constant value p
  | nested ref => exact ⟨id, id⟩
  | emit i => exact extends_emit i p
  | load a value => exact (extends_constant value p).trans (extends_emit ..)
  | getGlobal a name => exact (extends_constant (.string name) p).trans (extends_emit ..)
  | setGlobal a name => exact (extends_constant (.string name) p).trans (extends_emit ..)
  | call a arguments results => exact extends_emit ..
  | ret a count => exact extends_emit ..

/-- So do several, by induction over them. -/
theorem extends_addAll (items : List Item) (p : Prototype) : Extends p ((addAll items).run p).2 := by
  induction items generalizing p with
  | nil => exact .refl p
  | cons item rest ih => exact (item.extends_add p).trans (ih _)

theorem extends_finish (p : Prototype) : Extends p (finish.run p).2 := by
  have sized : Extends p { p with window := (window p).toUInt8 } := ⟨id, id⟩
  refine sized.trans ?_
  change Extends _ ((if p.code.back?.map Instruction.opcode ≠ some Opcode.ret.code
    then discard (ret 0 0) else pure PUnit.unit : Assembler PUnit).run _).2
  split
  · exact extends_emit ..
  · exact .refl _

theorem partly_append (start : Prototype) (earlier later : List Item)
    : partly start (earlier ++ later) = partly (partly start earlier) later := by
  induction earlier generalizing start with
  | nil => rfl
  | cons item rest ih => exact ih (item.add.run start).2

/-- What is there after some items is there in the end. -/
theorem extends_partly (split : items = earlier ++ later)
    : Extends (partly start earlier) (built start items) := by
  subst split
  have whole : built start (earlier ++ later) = (finish.run (partly start (earlier ++ later))).2 :=
    rfl
  rw [whole, partly_append]
  exact (extends_addAll later _).trans (extends_finish _)

theorem extends_built (split : items = earlier ++ item :: later)
    : Extends (item.add.run (partly start earlier)).2 (built start items) := by
  have added : partly start (earlier ++ [item]) = (item.add.run (partly start earlier)).2 :=
    partly_append start earlier [item]
  exact added ▸ extends_partly (split.trans (List.append_cons ..))

/-- The constant at the position that the assembler answers with, and none before it, is equal to what was
asked for, unless this is a NaN.
-/
theorem constant_answer (value : Value) (p : Prototype)
    : (∃ w, ((constant value).run p).2.constants[((constant value).run p).1]? = some w
        ∧ w.StandsFor value)
      ∧ ∀ place < ((constant value).run p).1, ∃ w,
          ((constant value).run p).2.constants[place]? = some w ∧ (w == value) = false := by
  obtain ⟨index, found, ran⟩ | ⟨absent, ran⟩ := constant_run value p
  · obtain ⟨within, equal, first⟩ := Array.findIdx?_eq_some_iff_getElem.mp found
    rw [ran]
    refine ⟨⟨_, Array.getElem?_eq_getElem within, .inl equal⟩, fun place before => ?_⟩
    exact ⟨_, Array.getElem?_eq_getElem (Nat.lt_trans before within),
      Bool.eq_false_iff.mpr (first place before)⟩
  · rw [ran]
    refine ⟨⟨value, Array.getElem?_push_size, .inr rfl⟩, fun place before => ?_⟩
    have before : place < p.constants.size := before
    exact ⟨_, getElem?_push_of_some (Array.getElem?_eq_getElem before),
      Array.findIdx?_eq_none_iff.mp absent _ (Array.getElem_mem before)⟩

/-- What an item emits is at the place that the assembler answers with. -/
theorem emit_answer (i : Instruction) (p : Prototype)
    : ((emit i).run p).2.code[((emit i).run p).1]? = some i :=
  Array.getElem?_push_size

end Assembler

-----------------------------------------------------------------------------------------
-- What is asked for and what is done
-----------------------------------------------------------------------------------------

/-- An activation of a prototype, with the constants that it was assembled with, comes to a place of its
code.
-/
structure Frame.At (frame : Frame) (p : Prototype) (place : Nat) (m : Machine) : Prop where
  code : frame.code = p.code
  constants : (m.prototypes.get frame.prototype).constants = p.constants
  pc : frame.pc = place

namespace Assembler

/-- A position is that of what was asked for if it fits into a field of some bits, and else that of
something different: the field names a constant that is there in the end, but another one.
-/
structure Names (bits : Nat) (p : Prototype) (position : Nat) (asked value : Value) : Prop where
  held : p.constants[position % 2 ^ bits]? = some value
  fits : position < 2 ^ bits → value.StandsFor asked
  exceeds : 2 ^ bits ≤ position → (value == asked) = false

/-- Everything that the assembler encodes does what was asked for as far as it fits. -/
structure Encodes (start : Prototype) (items : List Item) : Prop where
  /-- Activations of closures over the prototype start at the first instruction. -/
  opened
    : ∀ (m : Machine) (ref : ClosureRef) c, m.heap.closures.get ref.handle = .ok c
      → (m.prototypes.get c.prototype).code = (built start items).code
      → (m.prototypes.get c.prototype).constants = (built start items).constants
      → ∀ arguments depth, ∃ frame, Vm.openFrame ref arguments depth m = .ok frame m
        ∧ frame.At (built start items) 0 m
  /-- What is emitted stands where the assembler answers, and stays there. -/
  emitted
    : ∀ earlier i later, items = earlier ++ .emit i :: later
      → (built start items).code[answer start earlier (.emit i)]? = some i
  /-- Operands for the position of a constant read that constant. -/
  operand
    : ∀ earlier asked later, items = earlier ++ .constant asked :: later
      → ∃ value, Names 8 (built start items) (answer start earlier (.constant asked)) asked value
        ∧ ∀ frame place m, frame.At (built start items) place m → ∀ op a b c,
          (b = constantOperand (answer start earlier (.constant asked))
            → Vm.operand frame (Instruction.abc op a b c).b m = .ok value m)
          ∧ (c = constantOperand (answer start earlier (.constant asked))
            → Vm.operand frame (Instruction.abc op a b c).c m = .ok value m)
  load
    : ∀ earlier a asked later, items = earlier ++ .load a asked :: later
      → ∃ value, Names 18 (built start items) (answer start earlier (.constant asked)) asked value
        ∧ ∀ frame m, frame.At (built start items) (answer start earlier (.load a asked)) m
          → ∀ invoke, Vm.step invoke frame m
            = (do
              Vm.charge
              return .next (frame.past.write a.toNat value) : Vm Vm.Flow) m
  getGlobal
    : ∀ earlier a name later, items = earlier ++ .getGlobal a name :: later
      → ∃ value, Names 18 (built start items) (answer start earlier (.constant (.string name)))
          (.string name) value
        ∧ ∀ frame m, frame.At (built start items) (answer start earlier (.getGlobal a name)) m
          → ∀ invoke, Vm.step invoke frame m
            = (do
              Vm.charge
              let read ← Vm.index invoke (.table frame.environment) value frame.depth
              return .next (frame.past.write a.toNat read) : Vm Vm.Flow) m
  setGlobal
    : ∀ earlier a name later, items = earlier ++ .setGlobal a name :: later
      → ∃ value, Names 18 (built start items) (answer start earlier (.constant (.string name)))
          (.string name) value
        ∧ ∀ frame m, frame.At (built start items) (answer start earlier (.setGlobal a name)) m
          → ∀ invoke, Vm.step invoke frame m
            = (do
              Vm.charge
              Vm.assign invoke (.table frame.environment) value (frame.read a.toNat) frame.depth
              return .next frame.past : Vm Vm.Flow) m
  /-- A call passes as many arguments as asked for and keeps as many results, each up to 510. -/
  call
    : ∀ earlier a arguments results later, items = earlier ++ .call a arguments results :: later
      → ∃ passed kept, (∀ frame m,
          frame.At (built start items) (answer start earlier (.call a arguments results)) m
          → ∀ invoke, Vm.step invoke frame m
            = (do
              Vm.charge
              return .call frame.past (frame.read a.toNat) (frame.span (a.toNat + 1) passed)
                (.store a.toNat kept) : Vm Vm.Flow) m)
        ∧ passed = (arguments.toNat + 1) % 2 ^ 9 ∧ kept = (results.toNat + 1) % 2 ^ 9
        ∧ (arguments.toNat ≤ 510 → ∀ frame : Frame,
          frame.span (a.toNat + 1) passed
            = (List.range' (a.toNat + 1) arguments.toNat).map frame.read)
        ∧ (results.toNat ≤ 510 → ∀ (frame : Frame) values,
          frame.takeResults a.toNat kept values
            = frame.writeAll a.toNat (fit results.toNat values))
  /-- A return has as many values as asked for, up to 510. -/
  ret
    : ∀ earlier a count later, items = earlier ++ .ret a count :: later
      → ∃ kept, (∀ frame m, frame.At (built start items) (answer start earlier (.ret a count)) m
          → ∀ invoke, Vm.step invoke frame m
            = (do
              Vm.charge
              return .finish (frame.span a.toNat kept) : Vm Vm.Flow) m)
        ∧ kept = (count.toNat + 1) % 2 ^ 9
        ∧ (count.toNat ≤ 510 → ∀ frame : Frame,
          frame.span a.toNat kept = (List.range' a.toNat count.toNat).map frame.read)

variable {frame : Frame} {m : Machine} {place k bits : Nat} {w : Value} {a : UInt8} {invoke : Invoke}

/-- There is a constant that a field names, whatever its width. -/
theorem exists_names (bits : Nat) (more : Extends ((constant value).run p).2 q)
    : ∃ w, Names bits q ((constant value).run p).1 value w := by
  obtain ⟨⟨w, held, stands⟩, before⟩ := constant_answer value p
  by_cases small : ((constant value).run p).1 < 2 ^ bits
  · refine ⟨w, ?_, fun _ => stands, fun large => absurd small (Nat.not_lt.mpr large)⟩
    rw [Nat.mod_eq_of_lt small]
    exact more.constants held
  · have large := Nat.not_lt.mp small
    have reduced : ((constant value).run p).1 % 2 ^ bits < ((constant value).run p).1 :=
      Nat.lt_of_lt_of_le (Nat.mod_lt _ (Nat.two_pow_pos bits)) large
    obtain ⟨x, there, different⟩ := before _ reduced
    exact ⟨x, more.constants there, fun fits => absurd fits small, fun _ => different⟩

/-- An activation fetches what stands at its place. -/
theorem fetched_of_at (runs : frame.At q place m) (held : q.code[place]? = some i)
    : frame.code[frame.pc]? = some i := by
  rw [runs.code, runs.pc, held]

/-- The constant that an instruction names is used once the instruction is counted. -/
theorem charged_congr {α : Type} {x y : Vm α} (names : Names bits q k value w)
    (runs : frame.At q place m)
    (same : ∀ counted, frame.past.Uses (k % 2 ^ bits) w counted → x counted = y counted)
    : (Vm.charge >>= fun _ => x) m = (Vm.charge >>= fun _ => y) m := by
  rcases counts : Vm.charge m with ⟨⟨⟩, counted⟩ | ⟨halt, counted⟩
  · rw [Run.bind_ok counts, Run.bind_ok counts]
    refine same counted (Frame.uses_of_constant ?_)
    have constants : (m.prototypes.get frame.past.prototype).constants = q.constants := runs.constants
    rw [Vm.prototypes_of_charge counts, constants, names.held]
  · rw [Run.bind_error counts, Run.bind_error counts]

theorem toNat_toUInt32_mod (k : Nat) : k.toUInt32.toNat % 2 ^ 18 = k % 2 ^ 18 := by
  rw [Nat.toUInt32_eq, UInt32.toNat_ofNat']
  omega

theorem toNat_succ_mod (n : UInt16) : (n + 1).toNat % 2 ^ 9 = (n.toNat + 1) % 2 ^ 9 := by
  rw [UInt16.toNat_add]
  change (n.toNat + 1) % 2 ^ 16 % 2 ^ 9 = _
  omega

/-- An item that puts the position of a constant into the wide field of its instruction. -/
theorem exists_pooled {op : Opcode} (adds : item.add = (do abx op a (← constant value).toUInt32))
    (split : items = earlier ++ item :: later)
    : ∃ w i, Names 18 (built start items) (answer start earlier (.constant value)) value w
        ∧ (built start items).code[answer start earlier item]? = some i
        ∧ i.operation? = some op ∧ i.a = a.toNat
        ∧ i.bx = answer start earlier (.constant value) % 2 ^ 18 := by
  have more : Extends _ (built start items) := extends_built split
  rw [adds] at more
  obtain ⟨w, names⟩ := exists_names 18 ((extends_emit _ _).trans more)
  obtain ⟨operation, fieldA, fieldBx⟩ :=
    Instruction.abx_fields op a (answer start earlier (.constant value)).toUInt32
  rw [toNat_toUInt32_mod] at fieldBx
  refine ⟨w, _, names, ?_, operation, fieldA, fieldBx⟩
  unfold answer
  rw [adds]
  exact more.code (emit_answer _ _)

/-- The assembler encodes what it is asked for, in every sequence of items, as far as it fits. -/
theorem encodes (start : Prototype) (items : List Item) : Encodes start items := by
  constructor
  case opened =>
    intro m ref c found code constants arguments depth
    obtain ⟨frame, opens, opened, -, -, -, prototype⟩ := Vm.exists_openFrame found arguments depth
    exact ⟨frame, opens, opened.code.trans code, by rw [prototype, constants], opened.pc⟩
  case emitted =>
    intro earlier i later split
    exact (extends_built split).code (emit_answer i _)
  case operand =>
    intro earlier asked later split
    obtain ⟨w, names⟩ := exists_names 8 (extends_built split)
    refine ⟨w, names, fun frame place m runs op a b c => ?_⟩
    obtain ⟨-, -, fieldB, fieldC⟩ := Instruction.abc_fields op a b c
    have field := Instruction.constantOperand_field (answer start earlier (.constant asked))
    have uses := Frame.uses_of_constant (by rw [runs.constants, names.held])
    refine ⟨fun isB => ?_, fun isC => ?_⟩
    · rw [fieldB, isB]
      exact uses.operand field.1 field.2
    · rw [fieldC, isC]
      exact uses.operand field.1 field.2
  case load =>
    intro earlier a asked later split
    obtain ⟨w, i, names, held, operation, fieldA, fieldBx⟩ := exists_pooled rfl split
    refine ⟨w, names, fun frame m runs invoke => ?_⟩
    rw [Vm.step_eq invoke (fetched_of_at runs held), operation, ← fieldA]
    exact charged_congr names runs fun counted uses => Run.bind_ok (uses.loadK invoke fieldBx)
  case getGlobal =>
    intro earlier a name later split
    obtain ⟨w, i, names, held, operation, fieldA, fieldBx⟩ := exists_pooled rfl split
    refine ⟨w, names, fun frame m runs invoke => ?_⟩
    rw [Vm.step_eq invoke (fetched_of_at runs held), operation, ← fieldA]
    refine charged_congr names runs fun counted uses => ?_
    refine (Run.bind_congr (uses.getGlobal invoke fieldBx)).trans ?_
    rw [bind_assoc]
    rfl
  case setGlobal =>
    intro earlier a name later split
    obtain ⟨w, i, names, held, operation, fieldA, fieldBx⟩ := exists_pooled rfl split
    refine ⟨w, names, fun frame m runs invoke => ?_⟩
    rw [Vm.step_eq invoke (fetched_of_at runs held), operation, ← fieldA]
    refine charged_congr names runs fun counted uses => ?_
    refine (Run.bind_congr (uses.setGlobal invoke fieldBx)).trans ?_
    rw [bind_assoc]
    rfl
  case call =>
    intro earlier a arguments results later split
    have more : Extends _ (built start items) := extends_built split
    have held := more.code (emit_answer _ _)
    obtain ⟨operation, fieldA, fieldB, fieldC⟩ :=
      Instruction.abc_fields .call a (arguments + 1) (results + 1)
    rw [toNat_succ_mod] at fieldB fieldC
    refine ⟨_, _, fun frame m runs invoke => ?_, rfl, rfl, fun few frame => ?_, fun few frame values => ?_⟩
    · rw [Vm.step_eq invoke (fetched_of_at runs held), operation, fieldA, fieldB, fieldC]
    · rw [Nat.mod_eq_of_lt (by omega), Frame.span_succ]
    · rw [Nat.mod_eq_of_lt (by omega)]
      rfl
  case ret =>
    intro earlier a count later split
    have more : Extends _ (built start items) := extends_built split
    have held := more.code (emit_answer _ _)
    obtain ⟨operation, fieldA, fieldB, -⟩ := Instruction.abc_fields .ret a (count + 1) 0
    rw [toNat_succ_mod] at fieldB
    refine ⟨_, fun frame m runs invoke => ?_, rfl, fun few frame => ?_⟩
    · rw [Vm.step_eq invoke (fetched_of_at runs held), operation, fieldA, fieldB]
    · rw [Nat.mod_eq_of_lt (by omega), Frame.span_succ]

end Assembler
end HookMachine
