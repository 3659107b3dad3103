import HookMachine.Proofs.Instruction.Assembly
import HookMachine.Proofs.Instruction.Formats

/-!
Places in code and where control leads from them. Code is closed if no instruction leads out of
it. Assembled code is, as every way past its last instruction leads to a return, except for a few:
a jump or a skip over the last instruction if that is a return, and any skip by the last
instruction.
-/

namespace HookMachine

namespace Instruction

-----------------------------------------------------------------------------------------
-- Where instructions lead
-----------------------------------------------------------------------------------------

/-- Whether an instruction can move to a target. -/
def jumps (i : Instruction) : Bool :=
  match i.operation? with
  | some .jmp | some .forPrep | some .forLoop => true
  | _ => false

/-- Whether an instruction can skip the next one. -/
def skips (i : Instruction) : Bool :=
  match i.operation? with
  | some .eq | some .lt | some .le | some .test | some .testSet => true
  | some .loadBool => i.c ≠ 0
  | _ => false

/-- Whether an instruction can say what is captured. -/
def captures (i : Instruction) : Bool :=
  match i.operation? with
  | some .move | some .getUpval => true
  | _ => false

/-- The places to which an instruction at a place can lead. -/
inductive Leads (code : Array Instruction) (place : Nat) (i : Instruction) : Nat → Prop
  | on (stays : i.operation? ≠ some .ret) : Leads code place i (place + 1)
  | skip (skips : i.skips = true) : Leads code place i (place + 2)
  | jump (jumps : i.jumps = true) (target : Nat) (named : (target : Int) = place + 1 + i.offset)
    : Leads code place i target
  /-- A closure is made, and control goes on behind the words that say what it captures. -/
  | close (closes : i.operation? = some .closure) (count : Nat)
    (words : ∀ k < count, ∃ word, code[place + 1 + k]? = some word ∧ word.captures = true)
    : Leads code place i (place + 1 + count)

/-- No instruction leads out of code, and it starts with one. -/
structure Closed (code : Array Instruction) : Prop where
  starts : 0 < code.size
  leads {place : Nat} {i : Instruction} {next : Nat}
    : code[place]? = some i → i.Leads code place next → next < code.size

/-- Code ends with a return. -/
def Returns (code : Array Instruction) : Prop :=
  code.back?.bind operation? = some .ret

instance (code : Array Instruction) : Decidable (Returns code) :=
  inferInstanceAs (Decidable (_ = _))

variable {code : Array Instruction} {place : Nat} {i : Instruction}

theorem not_ret_of_jumps (jumps : i.jumps = true) : i.operation? ≠ some .ret := by
  intro returns
  rw [Instruction.jumps, returns] at jumps
  cases jumps

theorem not_ret_of_skips (skips : i.skips = true) : i.operation? ≠ some .ret := by
  intro returns
  rw [Instruction.skips, returns] at skips
  cases skips

theorem not_ret_of_captures (captures : i.captures = true) : i.operation? ≠ some .ret := by
  intro returns
  rw [Instruction.captures, returns] at captures
  cases captures

/-- In code that ends with a return, what is no return is not the last. -/
theorem Returns.succ_lt (returns : Returns code) (held : code[place]? = some i)
    (other : i.operation? ≠ some .ret)
    : place + 1 < code.size := by
  obtain ⟨last, ends, operation⟩ := Option.bind_eq_some_iff.mp returns
  rw [Array.back?] at ends
  obtain ⟨within, -⟩ := Array.getElem?_eq_some_iff.mp held
  by_contra beyond
  have same : place = code.size - 1 := by omega
  rw [same, ends] at held
  cases held
  exact other operation

/-- Code that ends with a return is closed if no jump and no skip leads out of it. -/
theorem Returns.closed (returns : Returns code)
    (jumps : ∀ (place : Nat) i, code[place]? = some i → i.jumps = true
      → (place : Int) + 1 + i.offset < code.size)
    (skips : ∀ (place : Nat) i, code[place]? = some i → i.skips = true → place + 2 < code.size)
    : Closed code := by
  constructor
  case starts =>
    obtain ⟨last, ends, -⟩ := Option.bind_eq_some_iff.mp returns
    rw [Array.back?] at ends
    obtain ⟨within, -⟩ := Array.getElem?_eq_some_iff.mp ends
    omega
  case leads =>
    intro place i next held leads
    cases leads with
    | on stays => exact returns.succ_lt held stays
    | skip skip => exact skips place i held skip
    | jump jump target named =>
        have within := jumps place i held jump
        omega
    | close closes count words =>
        -- The last of the words that say what is captured is no return either.
        cases count with
        | zero => exact returns.succ_lt held (by rw [closes]; nofun)
        | succ count =>
            obtain ⟨word, there, captures⟩ := words count (Nat.lt_succ_self count)
            have within := returns.succ_lt there (not_ret_of_captures captures)
            omega

end Instruction

-----------------------------------------------------------------------------------------
-- Assembled code
-----------------------------------------------------------------------------------------

namespace Assembler

open Instruction (Returns Closed)

/-- An instruction can lead past the return behind some code: it skips the last instruction, or
leads behind it where no return is added because the code ends with one.
-/
def Bypasses (code : Array Instruction) (place : Nat) (i : Instruction) : Prop :=
  i.skips = true ∧ (place + 1 = code.size ∨ place + 2 = code.size ∧ Returns code)
    ∨ i.jumps = true ∧ (place : Int) + 1 + i.offset = code.size ∧ Returns code

instance (code : Array Instruction) (place : Nat) (i : Instruction)
    : Decidable (Bypasses code place i) :=
  inferInstanceAs (Decidable (_ ∨ _))

variable {start : Prototype} {items : List Item} {code : Array Instruction}

theorem returns_iff : Returns code ↔ code.back?.map Instruction.opcode = some Opcode.ret.code := by
  rw [Returns, Option.map_eq_some_iff, Option.bind_eq_some_iff]
  refine exists_congr fun last => and_congr_right fun _ => ?_
  constructor
  · exact Instruction.opcode_of_operation?
  · intro number
    rw [Instruction.operation?, number, Opcode.ofCode?_code]

/-- Finished code is what was emitted if that ends with a return, and else has one behind it. -/
theorem code_finish (p : Prototype)
    : Returns p.code ∧ (finish.run p).2.code = p.code
      ∨ ¬Returns p.code ∧ ∃ last : Instruction, last.operation? = some .ret
        ∧ (finish.run p).2.code = p.code.push last := by
  rw [returns_iff]
  have ends : (finish.run p).2
      = ((if p.code.back?.map Instruction.opcode ≠ some Opcode.ret.code
          then discard (ret 0 0) else pure PUnit.unit : Assembler PUnit).run
            { p with window := (window p).toUInt8 }).2 :=
    rfl
  rw [ends]
  split
  · rename_i unended
    exact .inr ⟨unended, _, (Instruction.abc_fields .ret 0 _ 0).1, rfl⟩
  · rename_i ended
    exact .inl ⟨not_not.mp ended, rfl⟩

/-- Assembled code ends with a return. -/
theorem returns_built (start : Prototype) (items : List Item)
    : Returns (built start items).code := by
  have whole : built start items = (finish.run (partly start items)).2 := rfl
  rw [whole]
  rcases code_finish (partly start items) with ⟨returns, same⟩ | ⟨-, last, operation, same⟩
  · rwa [same]
  · rw [same, Returns, Array.back?_push]
    exact operation

/-- Assembled code is closed if no jump that was emitted has a target behind the end and no
instruction leads past the return there.
-/
theorem closed_built
    (jumps : ∀ (place : Nat) i, (partly start items).code[place]? = some i → i.jumps = true
      → (place : Int) + 1 + i.offset ≤ (partly start items).code.size)
    (straight : ∀ (place : Nat) i, (partly start items).code[place]? = some i
      → ¬Bypasses (partly start items).code place i)
    : Closed (built start items).code := by
  have whole : built start items = (finish.run (partly start items)).2 := rfl
  have returns := returns_built start items
  rcases code_finish (partly start items) with ⟨ends, same⟩ | ⟨-, last, operation, same⟩
  · rw [whole, same] at returns ⊢
    refine returns.closed (fun place i held jump => ?_) fun place i held skip => ?_
    · have bounded := jumps place i held jump
      have apart : (place : Int) + 1 + i.offset ≠ (partly start items).code.size := fun exact =>
        straight place i held (.inr ⟨jump, exact, ends⟩)
      omega
    · have inside := returns.succ_lt held (Instruction.not_ret_of_skips skip)
      have apart : place + 2 ≠ (partly start items).code.size := fun exact =>
        straight place i held (.inl ⟨skip, .inr ⟨exact, ends⟩⟩)
      omega
  · rw [whole, same] at returns ⊢
    -- The return that was added neither jumps nor skips.
    have emitted {place : Nat} {i : Instruction}
        (held : ((partly start items).code.push last)[place]? = some i)
        (other : i.operation? ≠ some .ret)
        : (partly start items).code[place]? = some i := by
      rw [Array.getElem?_push] at held
      split at held
      · cases held
        exact absurd operation other
      · exact held
    refine returns.closed (fun place i held jump => ?_) fun place i held skip => ?_
    · have bounded := jumps place i (emitted held (Instruction.not_ret_of_jumps jump)) jump
      rw [Array.size_push]
      omega
    · have there := emitted held (Instruction.not_ret_of_skips skip)
      obtain ⟨within, -⟩ := Array.getElem?_eq_some_iff.mp there
      have apart : place + 1 ≠ (partly start items).code.size := fun exact =>
        straight place i there (.inl ⟨skip, .inl exact⟩)
      rw [Array.size_push]
      omega

end Assembler
end HookMachine
