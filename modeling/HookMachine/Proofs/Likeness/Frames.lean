import HookMachine.Execution.Frame
import HookMachine.Proofs.Likeness.Primitives

/-!
Activations that are alike: at the same place of the same code, their registers read alike.
Moving like values between registers leaves them so, and results go the same way through like
stacks.
-/

namespace HookMachine

/-- Writing a register changes that register only. -/
theorem Frame.read_write (frame : Frame) (r : Nat) (value : Value) (s : Nat)
    : (frame.write r value).read s = if s = r then value else frame.read s := by
  unfold write read
  simp only [Array.getD_eq_getD_getElem?]
  split
  · rename_i inside
    rw [Array.getElem?_setIfInBounds]
    by_cases same : s = r
    · simp [same, inside]
    · simp [same, Ne.symm same]
  · rename_i outside
    have size : (frame.registers ++ Array.replicate (r - frame.registers.size) Value.nil).size = r
        := by
      simp
      omega
    rw [Array.getElem?_push, size]
    split
    · rfl
    · rw [Array.getElem?_append, Array.getElem?_replicate]
      split
      · rfl
      · split
        · simp_all
        · simp_all

/-- Registers that no argument fills read as missing arguments do, however many there are. -/
theorem getD_fit {values : List Value} {n : Nat} (within : values.length ≤ n) (r : Nat)
    : (fit n values).toArray.getD r .nil = values.getD r .nil := by
  rw [Array.getD_eq_getD_getElem?, List.getElem?_toArray, fit, List.take_of_length_le within,
    List.getElem?_append, List.getElem?_replicate, List.getD_eq_getElem?_getD]
  split
  · rfl
  · rename_i beyond
    rw [List.getElem?_eq_none (Nat.le_of_not_lt beyond)]
    split <;> rfl

namespace Tie

variable (t : Tie)

/-- Activations that run the same code on like values; the second may lie deeper. -/
structure Frames (f g : Frame) : Prop where
  closure : t.ClosureRefs f.closure g.closure
  prototype : f.prototype = g.prototype
  known : t.prototype f.prototype
  code : f.code = g.code
  upvalues : f.upvalues = g.upvalues
  cells : ∀ cell ∈ f.upvalues, t.cell cell
  environment : t.TableRefs f.environment g.environment
  registers (r : Nat) : t.Values (f.read r) (g.read r)
  extra : t.Lists f.extra g.extra
  top : f.top = g.top
  pc : f.pc = g.pc
  depth : g.depth = f.depth + t.shift
  captured : f.captured = g.captured
  capturedCells : ∀ entry ∈ f.captured, t.cell entry.2

structure Layers (x y : Layer) : Prop where
  frame : t.Frames x.frame y.frame
  resume : x.resume = y.resume

/-- What leaves a stack, or the stack that it leads to. -/
inductive Outputs : List Value ⊕ (Layer × List Layer) → List Value ⊕ (Layer × List Layer) → Prop
  | results {xs ys : List Value} (alike : t.Lists xs ys) : Outputs (.inl xs) (.inl ys)
  | stack {top other : Layer} (alike : t.Layers top other) {callers others : List Layer}
    (below : callers.Forall₂ t.Layers others)
    : Outputs (.inr (top, callers)) (.inr (other, others))

variable {t} {f g : Frame} {v w : Value} {xs ys : List Value}

theorem Lists.fit (alike : t.Lists xs ys) (n : Nat) : t.Lists (fit n xs) (fit n ys) := by
  unfold HookMachine.fit
  rw [alike.length_eq]
  refine List.Forall₂.append (List.forall₂_take n alike) ?_
  exact List.forall₂_same.mpr fun value member => List.eq_of_mem_replicate member ▸ .nil

namespace Frames

theorem write (alike : t.Frames f g) (r : Nat) (value : t.Values v w)
    : t.Frames (f.write r v) (g.write r w) := by
  have registers (s : Nat) : t.Values ((f.write r v).read s) ((g.write r w).read s) := by
    rw [Frame.read_write, Frame.read_write]
    split
    · exact value
    · exact alike.registers s
  revert registers
  obtain ⟨closure, prototype, known, code, upvalues, cells, environment, -, extra, top, pc, depth,
    captured, capturedCells⟩ := alike
  unfold Frame.write
  split <;> split <;> exact fun registers => ⟨closure, prototype, known, code, upvalues, cells,
    environment, registers, extra, top, pc, depth, captured, capturedCells⟩

theorem writeAll (alike : t.Frames f g) (r : Nat) (values : t.Lists xs ys)
    : t.Frames (f.writeAll r xs) (g.writeAll r ys) := by
  induction values generalizing f g r with
  | nil => exact alike
  | cons value _ ih => exact ih (alike.write r value) (r + 1)

theorem skipIf (alike : t.Frames f g) (condition : Bool)
    : t.Frames (f.skipIf condition) (g.skipIf condition) := by
  unfold Frame.skipIf
  split
  · exact { alike with pc := congrArg (· + 1) alike.pc }
  · exact alike

theorem span (alike : t.Frames f g) (start count : Nat)
    : t.Lists (f.span start count) (g.span start count) := by
  unfold Frame.span
  rw [alike.top]
  exact List.forall₂_map_left_iff.mpr
    (List.forall₂_map_right_iff.mpr (List.forall₂_same.mpr fun r _ => alike.registers r))

/-- Open-ended lists of values reach up to the same register. -/
theorem writeToTop (alike : t.Frames f g) (r : Nat) (values : t.Lists xs ys)
    : t.Frames { f.writeAll r xs with top := r + xs.length }
        { g.writeAll r ys with top := r + ys.length } :=
  { alike.writeAll r values with top := congrArg (r + ·) values.length_eq }

theorem takeResults (alike : t.Frames f g) (a c : Nat) (results : t.Lists xs ys)
    : t.Frames (f.takeResults a c xs) (g.takeResults a c ys) := by
  unfold Frame.takeResults
  split
  · exact alike.writeToTop a results
  · exact alike.writeAll a (results.fit _)

end Frames

/-- Results go the same way through like stacks, by induction over the stack. -/
theorem Outputs.unwind (results : t.Lists xs ys) (resume : Resume) {callers others : List Layer}
    (below : callers.Forall₂ t.Layers others)
    : t.Outputs (unwind xs resume callers) (unwind ys resume others) := by
  induction below generalizing resume with
  | nil => cases resume <;> exact .results results
  | @cons top other callers others caller rest ih =>
      cases resume with
      | store a c =>
          have delivered : t.Layers { top with frame := top.frame.takeResults a c xs }
              { other with frame := other.frame.takeResults a c ys } :=
            ⟨caller.frame.takeResults a c results, caller.resume⟩
          exact .stack delivered rest
      | forward =>
          unfold HookMachine.unwind
          rw [caller.resume]
          exact ih _

end Tie

/-- An activation is opened alike over like closures, whatever number of registers they ask for. -/
theorem Likeness.openFrame_agree {ι : Type} {L : Likeness ι} {i : ι} (lawful : L.Lawful)
    {c d : ClosureRef} (tied : L.tie.ClosureRefs c d) {xs ys : List Value}
    (arguments : L.tie.Lists xs ys) {depth deeper : Nat} (depths : deeper = depth + L.tie.shift)
    : L.Agree i (Vm.openFrame c xs depth) (Vm.openFrame d ys deeper) L.tie.Frames := by
  refine (closure_agree lawful tied).bind fun x y closures => ?_
  rw [← closures.prototype]
  refine (prototype_agree lawful closures.known).bind fun p q prototypes => ?_
  rw [← prototypes.parameters, ← prototypes.variadic]
  have taken := List.forall₂_take p.parameters.toNat arguments
  have parameters (window : UInt8)
      : (xs.take p.parameters.toNat).length
        ≤ max (max window.toNat p.parameters.toNat) 1 := by
    rw [List.length_take]
    omega
  refine .pure ⟨tied, rfl, closures.known, prototypes.code, closures.upvalues, closures.cells,
    closures.environment, fun r => ?_, ?_, rfl, rfl, depths, rfl, by simp⟩
  · unfold Frame.read
    dsimp only
    rw [getD_fit (parameters _), getD_fit (taken.length_eq ▸ parameters _)]
    exact Tie.Lists.getD taken r
  · dsimp only
    split
    · exact List.forall₂_drop _ arguments
    · exact .nil

end HookMachine
