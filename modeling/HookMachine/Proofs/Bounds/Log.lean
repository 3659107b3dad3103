import HookMachine.Proofs.Bounds.Stacks

/-!
The log of a run: every moment at which an instruction comes up, with the activations that are
open then, those of all nested calls included; and what it means that machines count the
instructions of a log.
-/

namespace HookMachine

variable {α β : Type}

/-- A moment at which an instruction comes up: the activations that are open, the one that goes
on first, and the machine.
-/
structure Moment where
  opened : List Frame
  machine : Machine

/-- Whether there is an instruction and it may be charged for, so that it is executed. -/
def Moment.executes (moment : Moment) : Bool :=
  match moment.opened with
  | [] => false
  | frame :: _ =>
      match Vm.fetch frame moment.machine with
      | .ok .. => true
      | .error .. => false

/-- The moments of what follows a result. -/
def following (outcome : EStateM.Result (Halt Fault) Machine α)
    (more : α → Machine → List Moment)
    : List Moment :=
  match outcome with
  | .ok a after => more a after
  | .error .. => []

/-- The moments of a course whose calls are made by `invoke` and have the moments that `record`
says. A request that enters the machine anew has none here.
-/
def Course.log (invoke : Invoke) (record : Invocation → Machine → List Moment)
    : Course α → List Moment
  | .ends _ => []
  | .calls call now next =>
      record call now
        ++ following (Run.attempt (call.run invoke) now) fun results after =>
          (next results after).log invoke record
  | .asks request now next =>
      following (answer invoke request now) fun reply after =>
        (next reply after).log invoke record

/-- The moments of a run of a stack, with `outer` open below it. -/
def stackLog (invoke : Invoke) (record : List Frame → Invocation → Machine → List Moment)
    (outer : List Frame)
    : Nat → Layer → List Layer → Machine → List Moment
  | 0, _, _, _ => []
  | fuel + 1, top, callers, m =>
      let opened := top.frame :: (callers.map (·.frame) ++ outer)
      { opened, machine := m }
        :: following (Vm.fetch top.frame m) fun i charged =>
          (Plan.advance top callers i charged).log invoke (record opened)
            ++ following ((Plan.advance top callers i).run invoke charged) fun
              | .inl _, _ => []
              | .inr (top, callers), after =>
                  stackLog invoke record outer fuel top callers after

/-- The moments of a call, with `outer` open below it. -/
def callLog : Nat → List Frame → Invocation → Machine → List Moment
  | 0, _, _, _ => []
  | fuel + 1, outer, call, m =>
      (Plan.start call m).log (Vm.call fuel) (callLog fuel outer)
        ++ following ((Plan.start call).run (Vm.call fuel) m) fun
          | .inl _, _ => []
          | .inr frame, after =>
              stackLog (Vm.call fuel) (callLog fuel) outer fuel ⟨frame, .forward⟩ [] after

-----------------------------------------------------------------------------------------
-- Counting
-----------------------------------------------------------------------------------------

/-- What the instruction that comes up at a moment adds to the count of instructions. -/
def Limits.toll (limits : Limits) (moment : Moment) : Nat :=
  if 0 < limits.instructions ∧ moment.executes then 1 else 0

/-- The machines of a log count its instructions, from `start` on and up to `stop`. -/
inductive Counted (limits : Limits) : Nat → List Moment → Nat → Prop
  | nil (count : Nat) : Counted limits count [] count
  | cons {start moment rest stop} (limited : moment.machine.config.limits = limits)
    (steps : moment.machine.steps = start)
    (later : Counted limits (start + limits.toll moment) rest stop)
    : Counted limits start (moment :: rest) stop

namespace Counted

variable {limits : Limits} {start middle stop : Nat} {first second log : List Moment}

theorem append (earlier : Counted limits start first middle)
    (later : Counted limits middle second stop)
    : Counted limits start (first ++ second) stop := by
  induction earlier with
  | nil => exact later
  | cons limited steps _ ih => exact .cons limited steps (ih later)

theorem le (counted : Counted limits start log stop) : start ≤ stop := by
  induction counted with
  | nil => exact Nat.le_refl _
  | cons limited steps later ih => exact Nat.le_trans (Nat.le_add_right ..) ih

end Counted

namespace Moment

theorem executes_iff {frame : Frame} {rest : List Frame} {m : Machine}
    : executes { opened := frame :: rest, machine := m } = true
      ↔ ∃ i charged, Vm.fetch frame m = .ok i charged := by
  unfold executes
  dsimp only
  split
  · exact iff_of_true rfl ⟨_, _, ‹_›⟩
  · refine iff_of_false (by simp) ?_
    rintro ⟨i, charged, fetched⟩
    simp_all

/-- An instruction is executed only below the limit. -/
theorem lt_of_executes {moment : Moment} (executes : moment.executes = true)
    (limited : 0 < moment.machine.config.limits.instructions)
    : moment.machine.steps < moment.machine.config.limits.instructions := by
  obtain ⟨opened, m⟩ := moment
  cases opened with
  | nil => simp [Moment.executes] at executes
  | cons frame rest =>
      obtain ⟨i, charged, fetched⟩ := executes_iff.mp executes
      rcases Vm.fetch_cases frame m with ⟨fault, failed⟩ | ⟨_, ⟨free, -⟩ | ⟨below, -⟩⟩
      · rw [failed] at fetched
        cases fetched
      · exact absurd free (Nat.pos_iff_ne_zero.mp limited)
      · exact below

end Moment

namespace Counted

variable {limits : Limits} {start stop : Nat} {log : List Moment}

theorem toll_eq (limited : 0 < limits.instructions) (moment : Moment)
    : limits.toll moment = if moment.executes then 1 else 0 := by
  simp [Limits.toll, limited]

/-- Where instructions are limited, the count goes up by the number of those executed. -/
theorem stop_eq (limited : 0 < limits.instructions) (counted : Counted limits start log stop)
    : stop = start + log.countP Moment.executes := by
  induction counted with
  | nil => rfl
  | @cons start moment rest stop _ _ _ ih =>
      rw [ih, toll_eq limited, List.countP_cons]
      omega

/-- The count never passes the limit. -/
theorem stop_le (limited : 0 < limits.instructions) (counted : Counted limits start log stop)
    (within : start ≤ limits.instructions)
    : stop ≤ limits.instructions := by
  induction counted with
  | nil => exact within
  | @cons start moment rest stop governed steps _ ih =>
      refine ih ?_
      unfold Limits.toll
      split
      · have below := moment.lt_of_executes ‹_ ∧ _›.2 (governed ▸ limited)
        rw [governed, steps] at below
        exact below
      · exact within

/-- At a moment the machine has counted the instructions executed up to then. -/
theorem steps_eq (limited : 0 < limits.instructions) {before after : List Moment}
    {moment : Moment} (counted : Counted limits start (before ++ moment :: after) stop)
    : moment.machine.steps = start + before.countP Moment.executes := by
  induction before generalizing start with
  | nil =>
      cases counted with
      | cons _ steps _ => exact steps
  | cons first rest ih =>
      cases counted with
      | cons _ _ later =>
          rw [ih later, toll_eq limited, List.countP_cons]
          omega

/-- No machine of a log has counted less than the log starts from. -/
theorem le_steps (counted : Counted limits start log stop)
    : ∀ moment ∈ log, start ≤ moment.machine.steps := by
  induction counted with
  | nil => simp
  | cons _ steps _ ih =>
      refine List.forall_mem_cons.mpr ⟨Nat.le_of_eq steps.symm, fun moment member => ?_⟩
      exact Nat.le_trans (Nat.le_add_right ..) (ih moment member)

/-- The count never goes down. -/
theorem ascends (counted : Counted limits start log stop)
    : log.Pairwise fun earlier later => earlier.machine.steps ≤ later.machine.steps := by
  induction counted with
  | nil => exact .nil
  | cons _ steps later ih =>
      refine .cons (fun moment member => ?_) ih
      rw [steps]
      exact Nat.le_trans (Nat.le_add_right ..) (later.le_steps moment member)

end Counted

end HookMachine
