import HookMachine.Proofs.Execution.Invocations

/-!
How deep calls are: none is less deep than the operation that makes it, whatever comes back from those
before it. What an instruction calls is deeper than the activation that executes it.
-/

namespace HookMachine

variable {α : Type} {floor : Nat}

/-- No call of a course is less deep than a floor. -/
def Course.Deep (floor : Nat) : Course α → Prop
  | .ends _ => True
  | .calls call _ next => floor ≤ call.depth ∧ ∀ results after, (next results after).Deep floor
  | .asks _ _ next => ∀ reply after, (next reply after).Deep floor

theorem Course.deep_iff (course : Course α) : course.Deep floor ↔ course.Each (floor ≤ ·.depth) := by
  induction course with
  | ends outcome => rfl
  | calls call now next ih => exact and_congr .rfl (forall₂_congr ih)
  | asks request now next ih => exact forall₂_congr ih

theorem Course.deep_zero (course : Course α) : course.Deep 0 := by
  induction course with
  | ends outcome => trivial
  | calls call now next ih => exact ⟨Nat.zero_le _, ih⟩
  | asks request now next ih => exact ih

/-- No call of a plan is less deep than a floor. -/
structure Plan.Deep (floor : Nat) (plan : Plan α) : Prop where
  course : ∀ m, (plan m).Deep floor

namespace Plan

theorem Each.deep {plan : Plan α} (each : plan.Each (floor ≤ ·.depth)) : plan.Deep floor :=
  ⟨fun m => (plan m).deep_iff.mpr (each.course m)⟩

/-- What a native calls is deeper than the native. -/
theorem invokes_deep (frame : Frame) (i : Instruction) (resume : Resume) (callers : List Layer)
    : (invokes frame i resume callers).Deep (frame.depth + 2) :=
  (invokes_each frame i resume callers fun _ _ => Nat.le_refl _).deep

theorem start_deep (call : Invocation) : (start call).Deep (call.depth + 1) :=
  (start_each call fun _ _ => Nat.le_refl _).deep

/-- What an instruction calls is deeper than the activation. -/
theorem advance_deep (top : Layer) (callers : List Layer) (i : Instruction)
    : (advance top callers i).Deep (top.frame.depth + 1) := by
  by_cases calls : i.operation? = some .call ∨ i.operation? = some .tailCall
  · exact (advance_each_of_call callers calls fun _ _ => Nat.le_succ _).deep
  · exact (advance_each_of_other callers calls fun _ _ => Nat.le_refl _).deep

end Plan
end HookMachine
