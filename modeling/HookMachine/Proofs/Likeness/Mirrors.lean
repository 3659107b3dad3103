import HookMachine.Proofs.Likeness.Twins

/-!
A machine and an image of it that goes the same way. If every write makes of the image the image of
what it makes of the machine, and both count instructions and collect alike, then so does every
call: it comes to the same in the image, and leaves the image of the machine that it leaves.
-/

namespace HookMachine

/-- Keeps no state, and permits every point. -/
def Watch.free : Watch Unit where
  note _ _ := ()
  permits _ _ := True
  onward _ _ := True

theorem Watch.free_allows (points : List Point) : Watch.free.Allows () points := by
  induction points with
  | nil => trivial
  | cons _ _ ih => exact ⟨trivial, ih⟩

/-- An outcome that leaves the image of a machine. -/
def Vm.imaged {ε α : Type} (image : Machine → Machine)
    : EStateM.Result ε Machine α → EStateM.Result ε Machine α
  | .ok a after => .ok a (image after)
  | .error error after => .error error (image after)

namespace Likeness

/-- A machine of which something holds, and its image. -/
def mirrored (tie : Tie) (image : Machine → Machine) (holds : Machine → Prop) : Likeness Unit where
  tie
  machines _ m n := n = image m ∧ holds m
  escapes _ := False

/-- What is the same of a machine and its image besides what writes keep alike. Calls may be allowed
deeper in the image if they lie as much deeper.
-/
structure Mirrors (tie : Tie) (image : Machine → Machine) (holds : Machine → Prop) : Prop where
  whole : tie.Whole
  seamless : (mirrored tie image holds).Seamless
  depth (m : Machine)
    : m.config.limits.callDepth + tie.shift = (image m).config.limits.callDepth
  redirects (m : Machine)
    : m.config.limits.redirectDepth = (image m).config.limits.redirectDepth
  instructions (m : Machine)
    : m.config.limits.instructions = (image m).config.limits.instructions
  counts (m : Machine) (steps : Nat) : { image m with steps } = image { m with steps }
  enter (m : Machine) : (image m).enter = image m.enter
  leave (m : Machine) (steps : Nat) : (image m).leave steps = image (m.leave steps)
  /-- What holds has nothing to do with entries and the count of instructions. -/
  still {m : Machine} (activeCalls steps : Nat) : holds m → holds { m with activeCalls, steps }
  moves {m : Machine} {r : Request} (invoke : Invoke) : r.moves = true → holds m
    → ∃ o after, Course.answer invoke r m = .ok o after
      ∧ Course.answer invoke r (image m) = .ok o (image after) ∧ holds after

namespace Mirrors

variable {tie : Tie} {image : Machine → Machine} {holds : Machine → Prop}
  (mirrors : Mirrors tie image holds) {m : Machine}

include mirrors

theorem steps (m : Machine) : (image m).steps = m.steps :=
  (congrArg Machine.steps (mirrors.counts m m.steps)).symm

theorem count (m : Machine)
    : (image m).config.limits.count (image m).steps = m.config.limits.count m.steps := by
  rw [Limits.count, Limits.count, ← mirrors.instructions, mirrors.steps]

theorem paced : (mirrored tie image holds).Paced where
  toRegular := mirrors.seamless.regular
  depth := by
    rintro _ m _ ⟨rfl, -⟩
    exact .inl (mirrors.depth m)
  redirects := by
    rintro _ m _ ⟨rfl, -⟩
    exact .inl (mirrors.redirects m)
  charge := by
    rintro _ m _ ⟨rfl, held⟩
    rw [Vm.charge_eq, Vm.charge_eq, mirrors.count]
    cases m.config.limits.count m.steps with
    | none => exact .alike (.error _ ⟨rfl, held⟩)
    | some steps =>
        have counted : holds { m with steps } := mirrors.still m.activeCalls steps held
        exact .alike (.ok ⟨mirrors.counts m steps, counted⟩ rfl)

theorem conducted : (mirrored tie image holds).Conducted Watch.free where
  toPaced := mirrors.paced
  refl _ := trivial
  trans _ _ := trivial
  still _ := rfl
  stays _ escapes := escapes
  quiet _ _ _ := mirrors.whole
  enters := by
    rintro _ m _ ⟨rfl, held⟩
    exact ⟨mirrors.enter m, mirrors.still _ _ held⟩
  leaves := by
    rintro _ _ m _ after _ ⟨rfl, -⟩ - ⟨rfl, held⟩
    rw [mirrors.steps]
    exact ⟨⟨mirrors.leave after m.steps, mirrors.still _ _ held⟩, trivial⟩
  moves := by
    rintro _ m _ r s answers invoke asked moves - ⟨rfl, held⟩
    obtain ⟨rfl, same⟩ := mirrors.whole.requests asked
    cases same
    obtain ⟨o, after, ran, also, still⟩ := mirrors.moves invoke moves held
    exact ⟨o, o, _, _, ran, also, matched_eq ▸ rfl, ⟨rfl, still⟩, trivial⟩

theorem imaged {ε : Type} {p q : EStateM.Result ε Machine (List Value)}
    (outcomes : (mirrored tie image holds).Outcomes () tie.Lists p q)
    : q = Vm.imaged image p := by
  cases outcomes with
  | ok alike same =>
      obtain ⟨rfl, -⟩ := alike
      cases mirrors.whole.lists.mp same
      rfl
  | error halt alike =>
      obtain ⟨rfl, -⟩ := alike
      rfl

/-- A call comes to the same in the image. -/
theorem call (held : holds m) (fuel : Nat) (f : Value) (arguments : List Value)
    (caller : Option ClosureRef) (depth : Nat)
    : Vm.call fuel f arguments caller (depth + tie.shift) (image m)
      = Vm.imaged image (Vm.call fuel f arguments caller depth m) := by
  have whole := mirrors.whole
  have calls : tie.Invocations { f, arguments, caller, depth }
      { f, arguments, caller, depth := depth + tie.shift } :=
    ⟨whole.values.mpr rfl, whole.lists.mpr rfl, by rw [whole.closureRefs_eq, Option.rel_eq], rfl⟩
  have watched := call_watched mirrors.conducted fuel calls (i := ()) ⟨rfl, held⟩
  obtain ⟨-, -, outcomes⟩ := watched.kept (Watch.free_allows _)
  exact mirrors.imaged outcomes

/-- So does a session of the host, if calls lie no deeper in the image. -/
theorem session (held : holds m) (level : tie.shift = 0) (fuel : Nat) (p : HostProgram)
    : (Plan.program none 0 p).run (Vm.call fuel) (image m)
      = Vm.imaged image ((Plan.program none 0 p).run (Vm.call fuel) m) := by
  have watched := session_watched mirrors.conducted level fuel
    (mirrors.whole.programs_refl level p) (i := ()) ⟨rfl, held⟩
  obtain ⟨-, -, follows⟩ := watched.kept (Watch.free_allows _)
  generalize (Plan.program none 0 p).run (Vm.call fuel) m = outcome at *
  generalize (Plan.program none 0 p).run (Vm.call fuel) (image m) = other at *
  cases follows with
  | escapes escapes => exact escapes.elim
  | alike outcomes => exact mirrors.imaged outcomes

end Mirrors
end Likeness
end HookMachine
