import HookMachine.Execution.Invoke
import HookMachine.Proofs.Soundness.Effects

/-!
How operations lead from a sound machine to a sound machine: a judgement about one operation
in one machine, and a rule for each way in which operations are put together.
-/

namespace HookMachine.Rules

variable {ε ε' α β : Type} [FaultLike ε] [FaultLike ε'] {rules : Rules}
  {own mid lost : List Guard} {left : α → List Guard} {m after : Machine}

/-- What an operation does to a machine: the guards `left` are out after it with a result that is
`good`, and `lost` with an error, which is tolerated, or without fuel.
-/
def Tracks (rules : Rules) (x : Run ε α) (m : Machine) (left : α → List Guard)
    (lost : List Guard) (good : α → Machine → Prop) : Prop :=
  match x m with
  | .ok a after => rules.Passed m (left a) after ∧ good a after
  | .error (.failed error) after => rules.Passed m lost after ∧ rules.Tolerates error
  | .error .outOfFuel after => rules.Passed m lost after

/-- An operation after which the guards `own` are out in any case. -/
abbrev Leads (rules : Rules) (own : List Guard) (x : Run ε α) (m : Machine)
    (good : α → Machine → Prop) : Prop :=
  rules.Tracks x m (fun _ => own) own good

theorem Tolerates.toFault {failure : Failure} (tolerated : rules.Tolerates failure)
    : rules.Tolerates failure.toFault :=
  tolerated

theorem Tolerates.fault {fault : Fault} (tolerated : rules.Tolerates fault)
    : rules.Tolerates (Failure.fault fault) :=
  tolerated

theorem tolerates_refused (refusal : Refusal)
    : rules.Tolerates (Failure.refused refusal) :=
  fun _ blames => by cases blames

theorem Tolerates.of_blameless {fault : Fault} (blameless : fault.blamesHandle = false)
    : rules.Tolerates fault :=
  fun _ blames => by
    have blames : fault.blamesHandle = true := blames
    simp [blameless] at blames

namespace Tracks

variable {good : α → Machine → Prop} {x : Run ε α}

theorem ok {a : α} (ran : x m = .ok a after) (passed : rules.Passed m (left a) after)
    (holds : good a after)
    : rules.Tracks x m left lost good := by
  unfold Tracks
  rw [ran]
  exact ⟨passed, holds⟩

theorem failed {error : ε} (ran : x m = .error (.failed error) after)
    (passed : rules.Passed m lost after) (tolerated : rules.Tolerates error)
    : rules.Tracks x m left lost good := by
  unfold Tracks
  rw [ran]
  exact ⟨passed, tolerated⟩

theorem pure {a : α} (sound : rules.Sound own m) (holds : good a m)
    : rules.Leads own (pure a : Run ε α) m good :=
  .ok rfl (.refl sound) holds

theorem fail {error : ε} (sound : rules.Sound own m) (tolerated : rules.Tolerates error)
    (within : lost.Subperm own)
    : rules.Tracks (throw (.failed error) : Run ε α) m left lost good :=
  ⟨(Passed.refl sound).forget within, tolerated⟩

theorem bind {f : α → Run ε β} {left : β → List Guard} {mid : α → List Guard}
    {better : β → Machine → Prop} (first : rules.Tracks x m mid lost good)
    (rest : ∀ a after, rules.Passed m (mid a) after → good a after
      → rules.Tracks (f a) after left lost better)
    : rules.Tracks (x >>= f) m left lost better := by
  change rules.Tracks (EStateM.bind x f) m left lost better
  unfold Tracks EStateM.bind at *
  generalize x m = outcome at *
  rcases outcome with ⟨a, middle⟩ | ⟨error | _, middle⟩
  · obtain ⟨passed, holds⟩ := first
    have tracked := rest a middle passed holds
    rcases ran : f a middle with ⟨b, after⟩ | ⟨error | _, after⟩ <;>
      simp only [ran] at tracked ⊢
    · exact ⟨passed.trans tracked.1, tracked.2⟩
    · exact ⟨passed.trans tracked.1, tracked.2⟩
    · exact passed.trans tracked
  · exact first
  · exact first

theorem mono {better : α → Machine → Prop} (tracked : rules.Tracks x m left lost good)
    (implies : ∀ a after, rules.Passed m (left a) after → good a after → better a after)
    : rules.Tracks x m left lost better := by
  unfold Tracks at *
  generalize x m = outcome at *
  rcases outcome with ⟨a, after⟩ | ⟨error | _, after⟩
  · exact ⟨tracked.1, implies a after tracked.1 tracked.2⟩
  · exact tracked
  · exact tracked

/-- On an error one may forget of guards that are out. -/
theorem losing {fewer : List Guard} (tracked : rules.Tracks x m left lost good)
    (within : fewer.Subperm lost)
    : rules.Tracks x m left fewer good := by
  unfold Tracks at *
  generalize x m = outcome at *
  rcases outcome with ⟨a, after⟩ | ⟨error | _, after⟩
  · exact tracked
  · exact ⟨tracked.1.forget within, tracked.2⟩
  · exact tracked.forget within

theorem mapError {f : ε → ε'} (tracked : rules.Tracks x m left lost good)
    (tolerated : ∀ error, rules.Tolerates error → rules.Tolerates (f error))
    : rules.Tracks (Run.mapError f x) m left lost good := by
  unfold Tracks Run.mapError at *
  generalize x m = outcome at *
  rcases outcome with ⟨a, after⟩ | ⟨error | _, after⟩
  · exact tracked
  · exact ⟨tracked.1, tolerated error tracked.2⟩
  · exact tracked

/-- Running code as part of an operation of the host. -/
theorem lift {x : Vm α} (tracked : rules.Tracks x m left lost good)
    : rules.Tracks (liftM x : Action α) m left lost good :=
  tracked.mapError fun _ => Tolerates.fault

/-- An operation of the host as part of running code. -/
theorem toVm {x : Action α} (tracked : rules.Tracks x m left lost good)
    : rules.Tracks x.toVm m left lost good :=
  tracked.mapError fun _ => Tolerates.toFault

theorem onHalt {undo : Machine → Machine} (tracked : rules.Tracks x m left mid good)
    (undone : ∀ {after}, rules.Sound mid after → rules.Passed after lost (undo after))
    : rules.Tracks (Run.onHalt x undo) m left lost good := by
  unfold Tracks Run.onHalt at *
  generalize x m = outcome at *
  rcases outcome with ⟨a, after⟩ | ⟨error | _, after⟩
  · exact tracked
  · exact ⟨tracked.1.trans (undone tracked.1.sound), tracked.2⟩
  · exact tracked.trans (undone tracked.sound)

/-- An error that an operation goes on with is tolerated. -/
theorem attempt (tracked : rules.Tracks x m left lost good)
    : rules.Tracks (Run.attempt x) m (fun | .ok a => left a | .error _ => lost) lost fun
        | .ok a => good a
        | .error error => fun _ => rules.Tolerates error := by
  unfold Tracks Run.attempt at *
  generalize x m = outcome at *
  rcases outcome with ⟨a, after⟩ | ⟨error | _, after⟩ <;> exact tracked

/-- A change of the machine after which more is to come. -/
theorem step {change : Machine → Machine} {left : List Guard}
    (passed : rules.Passed m left (change m))
    : rules.Tracks (modify change : Run ε Unit) m (fun _ => left) lost
        fun _ after => change m = after :=
  .ok rfl passed rfl

theorem modify {change : Machine → Machine} {good : Unit → Machine → Prop}
    {left : List Guard} (passed : rules.Passed m left (change m))
    (holds : good () (change m))
    : rules.Tracks (modify change : Run ε Unit) m (fun _ => left) lost good :=
  .ok rfl passed holds

theorem modifyGet {change : Machine → α × Machine}
    (passed : rules.Passed m (left (change m).1) (change m).2)
    (holds : good (change m).1 (change m).2)
    : rules.Tracks (modifyGet change : Run ε α) m left lost good :=
  .ok rfl passed holds

/-- An operation that looks at the machine goes on in that machine. -/
theorem get {f : Machine → Run ε α} (tracked : rules.Tracks (f m) m left lost good)
    : rules.Tracks (get >>= f) m left lost good :=
  tracked

end Tracks

namespace Tracks

variable {good : α → Machine → Prop} {x : Run ε α}

/-- Where an operation that succeeds leads. -/
theorem of_ok (tracked : rules.Tracks x m left lost good) {a : α} (ran : x m = .ok a after)
    : rules.Passed m (left a) after ∧ good a after := by
  unfold Tracks at tracked
  rwa [ran] at tracked

/-- Where an operation that stops early leads. -/
theorem of_error (tracked : rules.Tracks x m left lost good) {halt : Halt ε}
    (ran : x m = .error halt after)
    : rules.Passed m lost after := by
  unfold Tracks at tracked
  rw [ran] at tracked
  cases halt with
  | failed error => exact tracked.1
  | outOfFuel => exact tracked

theorem tolerated (tracked : rules.Tracks x m left lost good) {error : ε}
    (ran : x m = .error (.failed error) after)
    : rules.Tolerates error := by
  unfold Tracks at tracked
  rw [ran] at tracked
  exact tracked.2

end Tracks

theorem Leads.attempt {x : Run ε α} {good : α → Machine → Prop}
    (led : rules.Leads own x m good)
    : rules.Leads own (Run.attempt x) m fun
        | .ok a => good a
        | .error error => fun _ => rules.Tolerates error := by
  unfold Leads Tracks Run.attempt at *
  generalize x m = outcome at *
  rcases outcome with ⟨a, after⟩ | ⟨error | _, after⟩ <;> exact led

/-- An entry from the host leaves what it leads to. -/
theorem Leads.enter {x : Vm α} {good better : α → Machine → Prop} (sound : rules.Sound own m)
    (inside : rules.Sound own m.enter → rules.Leads own x m.enter good)
    (implies : ∀ a after, good a after → better a (after.leave m.steps))
    : rules.Leads own (Vm.enter x) m better := by
  have entered : rules.Sound own m.enter := sound.of_eq rfl rfl rfl rfl rfl rfl rfl
  have left {middle : Machine} (passed : rules.Passed m.enter own middle)
      : rules.Passed m own (middle.leave m.steps) := by
    refine ⟨⟨passed.sound.of_eq rfl rfl rfl rfl rfl rfl rfl, ?_, ?_, ?_, passed.natives⟩,
      fun apart => ?_⟩
    · have began : rules.Later m m.enter := .of_objects rfl rfl rfl rfl rfl
      have ended : rules.Later middle (middle.leave m.steps) :=
        .of_objects rfl rfl rfl rfl rfl
      exact (began.trans passed.later).trans ended
    · have active := passed.active
      simp only [Machine.enter, Machine.leave] at active ⊢
      omega
    · have began : m.Altered m.enter := .aside rfl rfl
      have ended : middle.Altered (middle.leave m.steps) := .aside rfl rfl
      exact (began.trans passed.altered).trans ended
    · obtain ⟨events, run⟩ := passed.trace apart
      have quiet (first second : Machine) (heap : second.heap = first.heap)
          (hooks : second.hooks = first.hooks)
          : first.Quiet second :=
        .of_eq (by rw [heap]) (by rw [hooks])
      have began := Machine.Trace.quiet (.start m) (quiet m m.enter rfl rfl)
      exact ⟨_, .quiet (began.trans run) (quiet _ _ rfl rfl)⟩
  have led := inside entered
  unfold Leads Tracks Vm.enter at *
  generalize x m.enter = outcome at *
  rcases outcome with ⟨a, after⟩ | ⟨error | _, after⟩
  · exact ⟨left led.1, implies a after led.2⟩
  · exact ⟨left led.1, led.2⟩
  · exact left led

end HookMachine.Rules
