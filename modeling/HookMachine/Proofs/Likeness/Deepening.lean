import HookMachine.Proofs.Likeness.Mirrors

/-!
Deeper calls. All that the depth of a call decides is whether the call is too deep: it comes to the
same a number of levels deeper if the limit lies as many levels deeper. Only natives that enter the
machine anew could tell, since what they enter begins at the top wherever they are called.
-/

namespace HookMachine

/-- Everything stands for itself, and calls lie deeper in the second run. -/
def Tie.sunk (shift : Nat) : Tie :=
  { Tie.identity with shift }

theorem Tie.sunk_whole (shift : Nat) : (Tie.sunk shift).Whole :=
  ⟨Iff.rfl, Iff.rfl, fun _ => trivial, fun _ => trivial⟩

theorem Tie.Natives.hostFunctions {t : Tie} {n : Native} {f : HostFunction} (alike : t.Natives n n)
    (body : n.body = .host f)
    : t.HostFunctions f f := by
  have alike := alike.body
  rw [body] at alike
  cases alike with
  | host alike => exact @alike

namespace Machine

/-- The machine with calls allowed a number of levels deeper. -/
def deeper (m : Machine) (shift : Nat) : Machine :=
  { m with config.limits.callDepth := m.config.limits.callDepth + shift }

/-- No native can tell how deep it is called. -/
def Level (m : Machine) (shift : Nat) : Prop :=
  m.Employs fun f => (Tie.sunk shift).HostFunctions f f

variable {m : Machine} {shift : Nat}

theorem Level.natives (level : m.Level shift) {handle : Handle} {n : Native}
    (found : m.heap.natives.get handle = .ok n)
    : (Tie.sunk shift).Natives n n :=
  (Tie.sunk_whole shift).natives_refl (level found)

/-- Natives that make only calls within the running one cannot tell. -/
theorem level_of_contained {allows : HostFunction → Prop}
    (contained : ∀ f, allows f → HostFunction.Within allows (fun r => r.enters = false) f)
    (employs : m.Employs allows) (shift : Nat)
    : m.Level shift := by
  have whole := Tie.sunk_whole shift
  intro handle n found f body
  refine whole.hostFunctions_refl fun caller arguments => ?_
  refine whole.programs_of_within contained (fun r aside enters => ?_)
    (contained f (employs found f body) caller arguments)
  exact absurd enters (Bool.eq_false_iff.mp aside)

end Machine

namespace Likeness

variable {shift : Nat}

/-- A machine, and the same with deeper calls allowed, where no native can tell the depth. -/
def depths (shift : Nat) : Likeness Unit where
  tie := .sunk shift
  machines _ m n := n = m.deeper shift ∧ m.Level shift
  escapes _ := False

theorem depths_step {i : Unit} {m n : Machine} {change : Machine → Machine}
    (oblivious : Machine.Oblivious (fun x => (Tie.sunk shift).Natives x x) change)
    (alike : (depths shift).machines i m n)
    : (depths shift).machines i (change m) (change n) := by
  obtain ⟨rfl, level⟩ := alike
  refine ⟨?_, fun found f body => ?_⟩
  · have same := oblivious.limited m (m.deeper shift).config.limits m.steps
    refine same.trans ?_
    simp only [Machine.limited, Machine.deeper, oblivious.limits m, ← oblivious.steps m]
  · rcases oblivious.natives found with before | alike
    · exact level before f body
    · exact alike.hostFunctions body

theorem depths_shown {i : Unit} {m n : Machine} (alike : (depths shift).machines i m n)
    : (Tie.sunk shift).Machines m n := by
  obtain ⟨rfl, level⟩ := alike
  exact (Tie.sunk_whole shift).machines level.natives rfl rfl rfl rfl rfl rfl rfl rfl rfl rfl rfl rfl
    rfl rfl

theorem depths_seamless (shift : Nat) : (depths shift).Seamless :=
  have whole := Tie.sunk_whole shift
  seamless_of_whole whole
    (lawful_of_whole whole depths_shown fun _ oblivious _ => depths_step oblivious)
    fun _ oblivious _ => depths_step oblivious

/-- Answers to requests that enter nothing leave natives that cannot tell the depth. -/
theorem level_of_answered {m after : Machine} {r : Request} {o : Except Failure r.Answer}
    (level : m.Level shift) (aside : r.enters = false) (invoke : Invoke)
    (ran : Course.answer invoke r m = .ok o after)
    : after.Level shift := by
  let regime : Regime := { config := m.config, allows f := (Tie.sunk shift).HostFunctions f f }
  have idle : regime.Idle (Course.answer invoke r) := ((serve_idle invoke aside).attempt).mapError _
  have idles := idle.outcome m ⟨rfl, level⟩
  rw [ran] at idles
  intro handle n found
  exact idles.1.governs.employs found

theorem depths_mirrors (shift : Nat)
    : Mirrors (.sunk shift) (·.deeper shift) (·.Level shift) where
  whole := Tie.sunk_whole shift
  seamless := depths_seamless shift
  depth _ := rfl
  redirects _ := rfl
  instructions _ := rfl
  counts _ _ := rfl
  enter _ := rfl
  leave _ _ := rfl
  still _ _ level := level
  moves {m r} invoke moves level := by
    obtain ⟨o, heap, guards, ran, also⟩ :=
      answer_limited moves invoke m (m.deeper shift).config.limits m.steps
    have aside : r.enters = false := by
      cases r <;> first | rfl | cases moves
    exact ⟨o, _, ran, also, level_of_answered level aside invoke ran⟩

end Likeness

-----------------------------------------------------------------------------------------
-- Calls
-----------------------------------------------------------------------------------------

/-- An outcome that leaves a machine with deeper calls allowed. -/
def Vm.sunk {ε α : Type} (shift : Nat)
    : EStateM.Result ε Machine α → EStateM.Result ε Machine α
  | .ok a after => .ok a (after.deeper shift)
  | .error error after => .error error (after.deeper shift)

theorem Vm.imaged_deeper {ε α : Type} (shift : Nat) (p : EStateM.Result ε Machine α)
    : imaged (·.deeper shift) p = sunk shift p := by
  cases p <;> rfl

/-- A call comes to the same a number of levels deeper, in a machine that allows calls as many levels
deeper; what it does to the machine and how many instructions it executes is the same too.
-/
theorem Vm.call_deeper {m : Machine} {shift : Nat} (level : m.Level shift) (fuel : Nat) (f : Value)
    (arguments : List Value) (caller : Option ClosureRef) (depth : Nat)
    : call fuel f arguments caller (depth + shift) (m.deeper shift)
      = sunk shift (call fuel f arguments caller depth m) := by
  rw [← imaged_deeper]
  exact (Likeness.depths_mirrors shift).call level fuel f arguments caller depth

end HookMachine
