import HookMachine.Proofs.Instruction.Assembly
import HookMachine.Proofs.Number.Zeros
import HookMachine.Proofs.Table.Keys

/-!
Pooled constants. Values that are equal share a constant, so a load of a value gets the first one
equal to it that was asked for. That is the value itself, unless both are zeros of different
signs. Whatever is asked for later changes nothing about it.
-/

namespace HookMachine

-----------------------------------------------------------------------------------------
-- Equal values
-----------------------------------------------------------------------------------------

/-- Whether a value is the zero with a sign. -/
def Value.IsZero (negative : Bool) : Value → Prop
  | .number x => Number.IsZero negative x
  | _ => False

/-- Equal values are the same, unless they are the zeros of both signs. -/
theorem Value.eq_or_isZero {a b : Value} (equal : (a == b) = true)
    : a = b ∨ ∃ negative, a.IsZero (!negative) ∧ b.IsZero negative := by
  rcases beq_cases equal with rfl | ⟨x, y, rfl, rfl, same⟩
  · exact .inl rfl
  · rcases Number.eq_or_isZero same with rfl | zeros
    · exact .inl rfl
    · exact .inr zeros

namespace Assembler

/-- The constant that an item asks for. -/
def Item.constant? : Item → Option Value
  | .constant value | .load _ value => some value
  | .getGlobal _ name | .setGlobal _ name => some (.string name)
  | .nested _ | .emit _ | .call .. | .ret .. => none

/-- The constants asked for: those of the declaration, and those of items. -/
def asked (start : Prototype) (items : List Item) : List Value :=
  start.constants.toList ++ items.filterMap Item.constant?

/-- The value that stands for another among those asked for: the first that is equal to it, or
itself.
-/
def pooled (known : List Value) (value : Value) : Value :=
  (known.find? (· == value)).getD value

/-- What stands for a value is the value, unless it is the zero of the other sign. -/
theorem pooled_cases (known : List Value) (value : Value)
    : pooled known value = value
      ∨ ∃ negative, value.IsZero negative ∧ (pooled known value).IsZero (!negative)
        ∧ pooled known value ∈ known := by
  unfold pooled
  cases found : known.find? (· == value) with
  | none => exact .inl rfl
  | some first =>
      have equal : (first == value) = true := List.find?_some (p := (· == value)) found
      rcases Value.eq_or_isZero equal with same | ⟨negative, other, zero⟩
      · exact .inl same
      · exact .inr ⟨negative, zero, other, List.mem_of_find?_eq_some found⟩

theorem pooled_string (known : List Value) (name : String)
    : pooled known (.string name) = .string name := by
  rcases pooled_cases known (.string name) with same | ⟨_, zero, -⟩
  · exact same
  · exact zero.elim

-----------------------------------------------------------------------------------------
-- What is in the pool
-----------------------------------------------------------------------------------------

variable {p q start : Prototype} {earlier later items : List Item} {item : Item} {value : Value}

/-- A constant that is asked for is found in the pool as if it had been added. -/
theorem find?_constant (value sought : Value) (p : Prototype)
    : ((constant value).run p).2.constants.toList.find? (· == sought)
      = (p.constants.toList ++ [value]).find? (· == sought) := by
  obtain ⟨index, found, ran⟩ | ⟨-, ran⟩ := constant_run value p
  · obtain ⟨within, equal, -⟩ := Array.findIdx?_eq_some_iff_getElem.mp found
    rw [ran, List.find?_append]
    cases known : p.constants.toList.find? (· == sought) with
    | some first => rfl
    | none =>
        -- What the pool has for the value would be found for whatever the value is equal to.
        have member : p.constants[index] ∈ p.constants.toList := Array.getElem_mem_toList within
        have apart : ¬(value == sought) = true := fun same =>
          List.find?_eq_none.mp known _ member (Value.beq_trans equal same)
        simp [apart]
  · rw [ran, Array.toList_push]

/-- So is what an item asks for. -/
theorem Item.find?_add (item : Item) (sought : Value) (p : Prototype)
    : (item.add.run p).2.constants.toList.find? (· == sought)
      = (p.constants.toList ++ item.constant?.toList).find? (· == sought) := by
  cases item with
  | constant value | load a value => exact find?_constant value sought p
  | getGlobal a name | setGlobal a name => exact find?_constant (.string name) sought p
  | nested ref | emit i | call a arguments results | ret a count =>
      rw [Item.constant?, Option.toList_none, List.append_nil]
      rfl

/-- The pool finds what was asked for, by induction over the items. -/
theorem find?_partly (sought : Value) (start : Prototype) (items : List Item)
    : (partly start items).constants.toList.find? (· == sought)
      = (asked start items).find? (· == sought) := by
  induction items generalizing start with
  | nil => rw [asked, List.filterMap_nil, List.append_nil]; rfl
  | cons item rest ih =>
      refine (ih (item.add.run start).2).trans ?_
      rw [asked, List.find?_append, item.find?_add, ← List.find?_append, asked, List.append_assoc]
      congr 2
      cases asks : item.constant? <;> simp [asks]

/-- The constant at the position that the assembler answers with is what stands for the value. -/
theorem pooled_answer (value : Value) (p : Prototype)
    : ((constant value).run p).2.constants[((constant value).run p).1]?
      = some (pooled p.constants.toList value) := by
  unfold pooled
  obtain ⟨index, found, ran⟩ | ⟨absent, ran⟩ := constant_run value p
  · obtain ⟨within, equal, first⟩ := Array.findIdx?_eq_some_iff_getElem.mp found
    have known : p.constants.toList.find? (· == value) = some p.constants[index] := by
      refine List.find?_eq_some_iff_getElem.mpr ⟨equal, index, within, rfl, fun place before => ?_⟩
      simpa using first place before
    rw [ran, known]
    exact Array.getElem?_eq_getElem within
  · have unknown : p.constants.toList.find? (· == value) = none := by
      refine List.find?_eq_none.mpr fun other member => ?_
      simpa using Array.findIdx?_eq_none_iff.mp absent other (Array.mem_toList_iff.mp member)
    rw [ran, unknown]
    exact Array.getElem?_push_size

-----------------------------------------------------------------------------------------
-- What is loaded
-----------------------------------------------------------------------------------------

/-- Pooled constants are what was asked for but for the sign of zero, and stay so. -/
structure Pools (start : Prototype) (items : List Item) : Prop where
  /-- A load gets the first value equal to the one that it asks for. -/
  load
    : ∀ earlier a value later, items = earlier ++ .load a value :: later
      → (built start items).constants.size ≤ 2 ^ 18
      → ∀ frame m, frame.At (built start items) (answer start earlier (.load a value)) m
      → ∀ invoke, Vm.step invoke frame m
        = (do
          Vm.charge
          return .next (frame.past.write a.toNat (pooled (asked start earlier) value))
            : Vm Vm.Flow) m
  /-- It is that value, unless both are zeros of different signs. -/
  exact (known : List Value) (value : Value)
    : pooled known value = value
      ∨ ∃ negative, value.IsZero negative ∧ (pooled known value).IsZero (!negative)
        ∧ pooled known value ∈ known
  /-- Names of globals are never taken for others. -/
  getGlobal
    : ∀ earlier a name later, items = earlier ++ .getGlobal a name :: later
      → (built start items).constants.size ≤ 2 ^ 18
      → ∀ frame m, frame.At (built start items) (answer start earlier (.getGlobal a name)) m
      → ∀ invoke, Vm.step invoke frame m
        = (do
          Vm.charge
          let read ← Vm.index invoke (.table frame.environment) (.string name) frame.depth
          return .next (frame.past.write a.toNat read) : Vm Vm.Flow) m
  setGlobal
    : ∀ earlier a name later, items = earlier ++ .setGlobal a name :: later
      → (built start items).constants.size ≤ 2 ^ 18
      → ∀ frame m, frame.At (built start items) (answer start earlier (.setGlobal a name)) m
      → ∀ invoke, Vm.step invoke frame m
        = (do
          Vm.charge
          Vm.assign invoke (.table frame.environment) (.string name) (frame.read a.toNat)
            frame.depth
          return .next frame.past : Vm Vm.Flow) m
  /-- What was emitted stays, and finds the constants that were there. -/
  kept
    : ∀ earlier later, items = earlier ++ later
      → (∀ (place : Nat) i, (partly start earlier).code[place]? = some i
          → (built start items).code[place]? = some i)
        ∧ ∀ (k : Nat) value, (partly start earlier).constants[k]? = some value
          → ∀ (frame : Frame) place m, frame.At (built start items) place m → frame.Uses k value m

/-- An item that puts the position of a constant into its wide field names what stands for the
constant.
-/
theorem exists_exact {op : Opcode} {a : UInt8}
    (adds : item.add = (do abx op a (← constant value).toUInt32))
    (split : items = earlier ++ item :: later) (few : (built start items).constants.size ≤ 2 ^ 18)
    : ∃ i, Names 18 (built start items) (answer start earlier (.constant value)) value
          (pooled (asked start earlier) value)
        ∧ (built start items).code[answer start earlier item]? = some i
        ∧ i.operation? = some op ∧ i.a = a.toNat
        ∧ i.bx = answer start earlier (.constant value) % 2 ^ 18 := by
  obtain ⟨w, i, names, rest⟩ := exists_pooled adds split
  have more : Extends _ (built start items) := extends_built split
  rw [adds] at more
  have held := more.constants (pooled_answer value (partly start earlier))
  obtain ⟨within, -⟩ := Array.getElem?_eq_some_iff.mp held
  have fits : answer start earlier (.constant value) < 2 ^ 18 := Nat.lt_of_lt_of_le within few
  have same : w = pooled (asked start earlier) value := by
    have there := names.held
    rw [Nat.mod_eq_of_lt fits] at there
    rw [pooled, ← find?_partly]
    exact Option.some.inj (there.symm.trans held)
  exact ⟨i, same ▸ names, rest⟩

/-- The pool keeps apart what differs in more than the sign of zero, whatever is asked for. -/
theorem pools (start : Prototype) (items : List Item) : Pools start items := by
  constructor
  case load =>
    intro earlier a value later split few frame m runs invoke
    obtain ⟨i, names, held, operation, fieldA, fieldBx⟩ := exists_exact rfl split few
    rw [Vm.step_eq invoke (fetched_of_at runs held), operation, ← fieldA]
    exact charged_congr names runs fun counted uses => Run.bind_ok (uses.loadK invoke fieldBx)
  case exact => exact pooled_cases
  case getGlobal =>
    intro earlier a name later split few frame m runs invoke
    obtain ⟨i, names, held, operation, fieldA, fieldBx⟩ := exists_exact rfl split few
    rw [pooled_string] at names
    rw [Vm.step_eq invoke (fetched_of_at runs held), operation, ← fieldA]
    refine charged_congr names runs fun counted uses => ?_
    refine (Run.bind_congr (uses.getGlobal invoke fieldBx)).trans ?_
    rw [bind_assoc]
    rfl
  case setGlobal =>
    intro earlier a name later split few frame m runs invoke
    obtain ⟨i, names, held, operation, fieldA, fieldBx⟩ := exists_exact rfl split few
    rw [pooled_string] at names
    rw [Vm.step_eq invoke (fetched_of_at runs held), operation, ← fieldA]
    refine charged_congr names runs fun counted uses => ?_
    refine (Run.bind_congr (uses.setGlobal invoke fieldBx)).trans ?_
    rw [bind_assoc]
    rfl
  case kept =>
    intro earlier later split
    have more : Extends (partly start earlier) (built start items) := extends_partly split
    refine ⟨fun place i => more.code, fun k value held frame place m runs => ?_⟩
    exact Frame.uses_of_constant (by rw [runs.constants, more.constants held])

end Assembler
end HookMachine
