import HookMachine.Proofs.Bounds.Steadiness

/-!
The stack of activations: each is deeper than those below it and none is deeper than the limit,
whatever instruction the one on top executes.
-/

namespace HookMachine

/-- From the top down a stack gets less deep, and it stays between two depths. -/
structure Stacked (base limit : Nat) (stack : List Layer) : Prop where
  descends : stack.Pairwise fun upper lower => lower.frame.depth < upper.frame.depth
  within : ∀ layer ∈ stack, base ≤ layer.frame.depth ∧ layer.frame.depth ≤ limit

namespace Stacked

variable {base limit : Nat} {top other : Layer} {callers : List Layer}

theorem single (from_base : base ≤ top.frame.depth) (to_limit : top.frame.depth ≤ limit)
    : Stacked base limit [top] := by
  refine ⟨List.pairwise_singleton .., fun layer member => ?_⟩
  rw [List.mem_singleton.mp member]
  exact ⟨from_base, to_limit⟩

theorem tail (stacked : Stacked base limit (top :: callers)) : Stacked base limit callers :=
  ⟨(List.pairwise_cons.mp stacked.descends).2,
    fun layer member => stacked.within layer (List.mem_cons_of_mem _ member)⟩

/-- Another activation of the same depth may take the place of the one on top. -/
theorem replace (stacked : Stacked base limit (top :: callers))
    (same : other.frame.depth = top.frame.depth)
    : Stacked base limit (other :: callers) := by
  obtain ⟨above, descends⟩ := List.pairwise_cons.mp stacked.descends
  obtain ⟨first, rest⟩ := List.forall_mem_cons.mp stacked.within
  refine ⟨List.pairwise_cons.mpr ⟨fun layer member => same ▸ above layer member, descends⟩, ?_⟩
  exact List.forall_mem_cons.mpr ⟨same ▸ first, rest⟩

/-- A deeper activation may go on top. -/
theorem push (stacked : Stacked base limit (top :: callers))
    (deeper : top.frame.depth < other.frame.depth) (to_limit : other.frame.depth ≤ limit)
    : Stacked base limit (other :: top :: callers) := by
  obtain ⟨above, -⟩ := List.pairwise_cons.mp stacked.descends
  have from_base := (stacked.within top List.mem_cons_self).1
  refine ⟨List.pairwise_cons.mpr ⟨List.forall_mem_cons.mpr ⟨deeper, ?_⟩, stacked.descends⟩, ?_⟩
  · exact fun layer member => Nat.lt_trans (above layer member) deeper
  · exact List.forall_mem_cons.mpr
      ⟨⟨Nat.le_trans from_base (Nat.le_of_lt deeper), to_limit⟩, stacked.within⟩

/-- Results are delivered to a part of the stack; by induction over the callers that pass them
on.
-/
theorem unwind (stacked : Stacked base limit callers) (results : List Value) (resume : Resume)
    {rest : List Layer} (delivered : unwind results resume callers = .inr (top, rest))
    : Stacked base limit (top :: rest) := by
  induction callers generalizing resume with
  | nil => cases resume <;> cases delivered
  | cons caller rest ih =>
      cases resume with
      | store a c =>
          cases delivered
          exact stacked.replace (by simp)
      | forward => exact ih stacked.tail caller.resume delivered

end Stacked

/-- What an instruction leaves of its activation is as deep as that. -/
def Vm.Flow.At (depth : Nat) : Vm.Flow → Prop
  | .next frame => frame.depth = depth
  | .call frame .. => frame.depth = depth
  | .finish _ => True

/-- What follows a step of a stack is a stack again, if not results. -/
def Stacked.After (base limit : Nat) : List Value ⊕ (Layer × List Layer) → Prop
  | .inl _ => True
  | .inr (top, callers) => Stacked base limit (top :: callers)

/-- A call that activates a closure does so at its own depth. -/
def Invocation.Activates (call : Invocation) (limit : Nat) : List Value ⊕ Frame → Prop
  | .inl _ => True
  | .inr frame => frame.depth = call.depth ∧ call.depth ≤ limit

namespace Plan

variable {regime : Regime} {asks : Request → Prop}

theorem perform_steady (frame : Frame) (i : Instruction)
    : (perform frame i).Steady regime asks (frame.depth + 1) (Vm.Flow.At frame.depth) := by
  have executed (op : Opcode)
      : (do return .next (← execute { frame with pc := frame.pc + 1 } op i)
          : Plan Vm.Flow).Steady regime asks (frame.depth + 1) (Vm.Flow.At frame.depth) :=
    (execute_steady { frame with pc := frame.pc + 1 } op i).bind fun after same => by
      exact .pure same
  unfold perform
  dsimp only
  split
  · exact .lift (.fail _)
  · exact .pure rfl
  · exact .pure rfl
  · exact .pure trivial
  · exact executed _

variable (programs : ∀ f, regime.allows f → HostFunction.Within regime.allows asks f)

include programs in
theorem advance_steady {base : Nat} {top : Layer} {callers : List Layer}
    (stacked : Stacked base regime.config.limits.callDepth (top :: callers)) (i : Instruction)
    : (advance top callers i).Steady regime asks (top.frame.depth + 1)
        (Stacked.After base regime.config.limits.callDepth) := by
  have unwinds (results : List Value) (resume : Resume) {callers : List Layer}
      (stacked : Stacked base regime.config.limits.callDepth callers)
      : Stacked.After base regime.config.limits.callDepth (unwind results resume callers) := by
    rcases delivered : unwind results resume callers with _ | ⟨top, rest⟩
    · trivial
    · exact stacked.unwind results resume delivered
  refine (perform_steady top.frame i).bind fun flow same => ?_
  cases flow with
  | next frame => exact .pure (stacked.replace same)
  | finish results => exact .pure (unwinds results top.resume stacked.tail)
  | call frame f arguments resume =>
      have kept : Stacked base regime.config.limits.callDepth ({ top with frame } :: callers) :=
        stacked.replace same
      have within : top.frame.depth + 1 ≤ frame.depth + 1 + 1 :=
        Nat.le_succ_of_le (Nat.le_of_eq (congrArg _ same.symm))
      refine .bind (.lift (Vm.checkDepth_yields _)) fun _ to_limit => ?_
      refine .andThen (.lift (Vm.resolve_idle f)) fun target => ?_
      split
      · refine .bind (.lift (Vm.openFrame_yields _ arguments _)) fun callee opened => ?_
        refine .pure (kept.push ?_ ?_)
        · exact opened ▸ Nat.lt_succ_self _
        · exact opened ▸ to_limit
      · refine .andThen (callOther_steady within fun ref _ => ?_) fun results => ?_
        · exact callNative_steady programs within ref arguments
        · exact .pure (unwinds results resume kept)

include programs in
theorem start_steady (call : Invocation)
    : (start call).Steady regime asks (call.depth + 1)
        (call.Activates regime.config.limits.callDepth) := by
  refine .bind (.lift (Vm.checkDepth_yields _)) fun _ to_limit => ?_
  refine .andThen (.lift (Vm.resolve_idle _)) fun target => ?_
  split
  · exact .bind (.lift (Vm.openFrame_yields _ _ _)) fun frame opened => .pure ⟨opened, to_limit⟩
  · refine .andThen (callOther_steady (Nat.le_refl _) fun ref _ => ?_) fun results => ?_
    · exact callNative_steady programs (Nat.le_refl _) ref _
    · exact .pure trivial

end Plan
end HookMachine
