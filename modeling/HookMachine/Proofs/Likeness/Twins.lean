import HookMachine.Proofs.Likeness.Runs
import HookMachine.Proofs.Likeness.Writes
import HookMachine.Proofs.Soundness.Ledger

/-!
Two runs of one machine under limits of their own. They keep pace if where the limits of one
stop it they stop the other too, or it escapes; all else is the same, and what holds of one
machine in between may be watched along the way.
-/

namespace HookMachine

/-- Everything stands for itself. -/
def Tie.identity : Tie where
  link := Eq
  recalls := Eq
  cell _ := True
  prototype _ := True
  shift := 0
  linked := id
  apart := by
    rintro _ _ _ _ rfl rfl
    rfl

theorem Tie.identity_whole : Tie.identity.Whole :=
  ⟨Iff.rfl, Iff.rfl, fun _ => trivial, fun _ => trivial⟩

/-- How limits and counts of instructions of two runs compare, and by which faults the first may
escape.
-/
structure Pace where
  relates : Limits → Nat → Limits → Nat → Prop
  escapes : Fault → Prop
  depth {l k : Limits} {s t : Nat} : relates l s k t
    → l.callDepth = k.callDepth ∨ l.callDepth ≤ k.callDepth ∧ escapes .stackOverflow
  redirects {l k : Limits} {s t : Nat} : relates l s k t
    → l.redirectDepth = k.redirectDepth
      ∨ l.redirectDepth ≤ k.redirectDepth ∧ escapes .redirectChain
  count {l k : Limits} {s t : Nat} : relates l s k t
    → (∃ s' t', l.count s = some s' ∧ k.count t = some t' ∧ relates l s' k t')
      ∨ l.count s = none ∧ (k.count t = none ∨ escapes .instructionLimit)
  fresh {l k : Limits} {s t : Nat} : relates l s k t → relates l 0 k 0
  restore {l k l' k' : Limits} {s t s' t' : Nat} : relates l s k t → relates l' s' k' t'
    → relates l' s k' t

/-- Two runs with the same limits and as many instructions counted. -/
def Pace.same : Pace where
  relates l s k t := k = l ∧ t = s
  escapes _ := False
  depth := by
    rintro _ _ _ _ ⟨rfl, rfl⟩
    exact .inl rfl
  redirects := by
    rintro _ _ _ _ ⟨rfl, rfl⟩
    exact .inl rfl
  count := by
    rintro _ k _ t ⟨rfl, rfl⟩
    rcases counted : k.count t with _ | steps
    · exact .inr ⟨rfl, .inl rfl⟩
    · exact .inl ⟨steps, steps, rfl, rfl, rfl, rfl⟩
  fresh := by
    rintro _ _ _ _ ⟨rfl, rfl⟩
    exact ⟨rfl, rfl⟩
  restore := by
    rintro _ _ _ _ _ _ _ _ ⟨rfl, rfl⟩ ⟨rfl, rfl⟩
    exact ⟨rfl, rfl⟩

/-- The machine with other limits and another count of instructions. -/
def Machine.limited (m : Machine) (limits : Limits) (steps : Nat) : Machine :=
  { m with config.limits := limits, steps }

/-- What differs between machines is none of what entries, hooks, environments and connections
keep; a connection may be enabled or disabled.
-/
structure Machine.Aside (m after : Machine) : Prop where
  config : after.config = m.config
  steps : after.steps = m.steps
  activeCalls : after.activeCalls = m.activeCalls
  retained : after.heap.retained = m.heap.retained
  guards : after.guards = m.guards
  environments : after.environments = m.environments
  hooks : after.hooks = m.hooks
  connected
    : ConnectionRegistry.guards after.connections = ConnectionRegistry.guards m.connections

namespace Machine.Aside

variable {m middle after : Machine}

theorem refl (m : Machine) : m.Aside m :=
  ⟨rfl, rfl, rfl, rfl, rfl, rfl, rfl, rfl⟩

theorem trans (first : m.Aside middle) (second : middle.Aside after) : m.Aside after where
  config := second.config.trans first.config
  steps := second.steps.trans first.steps
  activeCalls := second.activeCalls.trans first.activeCalls
  retained := second.retained.trans first.retained
  guards := second.guards.trans first.guards
  environments := second.environments.trans first.environments
  hooks := second.hooks.trans first.hooks
  connected := second.connected.trans first.connected

end Machine.Aside

/-- A change to machines that takes no notice of limits, and makes no native but as `allowed`. -/
structure Machine.Oblivious (allowed : Native → Prop) (change : Machine → Machine) : Prop where
  limited (m : Machine) (limits : Limits) (steps : Nat)
    : change (m.limited limits steps) = (change m).limited limits steps
  natives {m : Machine} {handle : Handle} {n : Native}
    : (change m).heap.natives.get handle = .ok n
      → m.heap.natives.get handle = .ok n ∨ allowed n

namespace Machine.Oblivious

variable {allowed : Native → Prop} {change : Machine → Machine}

theorem limits (oblivious : Oblivious allowed change) (m : Machine)
    : (change m).config.limits = m.config.limits :=
  congrArg (·.config.limits) (oblivious.limited m m.config.limits m.steps)

theorem steps (oblivious : Oblivious allowed change) (m : Machine)
    : (change m).steps = m.steps :=
  congrArg (·.steps) (oblivious.limited m m.config.limits m.steps)

end Machine.Oblivious

namespace Machine

variable {allowed : Native → Prop} {change : Machine → Machine}

/-- No write takes notice of limits. -/
theorem Writes.oblivious (writes : Writes allowed change) : Oblivious allowed change := by
  cases writes with
  | insertNative allows =>
      refine ⟨fun _ _ _ => rfl, fun found => ?_⟩
      rcases Arena.get_insert.mp found with ⟨-, rfl⟩ | before
      · exact .inr allows
      · exact .inl before
  | _ => exact ⟨fun _ _ _ => rfl, .inl⟩

theorem Writes.aside (writes : Writes allowed change) (m : Machine) : m.Aside (change m) := by
  cases writes with
  | setEnabled index on =>
      exact ⟨rfl, rfl, rfl, rfl, rfl, rfl, rfl,
        ConnectionRegistry.guards_setEnabled m.connections index on⟩
  | _ => exact ⟨rfl, rfl, rfl, rfl, rfl, rfl, rfl, rfl⟩

theorem Records.oblivious (records : Records change) : Oblivious allowed change := by
  cases records <;> exact ⟨fun _ _ _ => rfl, .inl⟩

theorem Records.activeCalls (records : Records change) (m : Machine)
    : (change m).activeCalls = m.activeCalls := by
  cases records <;> rfl

end Machine

namespace Likeness

variable {ι : Type}

-----------------------------------------------------------------------------------------
-- Likenesses at which everything stands for itself
-----------------------------------------------------------------------------------------

section

variable {L : Likeness ι} (whole : L.tie.Whole)

include whole

/-- If everything stands for itself, like machines have to stay so over the changes that are the
same in both.
-/
theorem lawful_of_whole (reads : ∀ {i m n}, L.machines i m n → L.tie.Machines m n)
    (step : ∀ {i m n} (change : Machine → Machine),
      Machine.Oblivious (fun x => L.tie.Natives x x) change
      → (∀ m : Machine, m.Aside (change m))
      → L.machines i m n → L.machines i (change m) (change n))
    : L.Lawful :=
  lawful_of_writes whole reads fun writes => step _ writes.oblivious writes.aside

/-- For registries the same goes. -/
theorem seamless_of_whole (lawful : L.Lawful)
    (step : ∀ {i m n} (change : Machine → Machine),
      Machine.Oblivious (fun x => L.tie.Natives x x) change
      → (∀ m : Machine, (change m).activeCalls = m.activeCalls)
      → L.machines i m n → L.machines i (change m) (change n))
    : L.Seamless :=
  seamless_of_records whole lawful fun records => step _ records.oblivious records.activeCalls

end

-----------------------------------------------------------------------------------------
-- Two sets of limits
-----------------------------------------------------------------------------------------

/-- One machine under two sets of limits, of which something holds in every state. -/
def twins (pace : Pace) (holds : ι → Machine → Prop) : Likeness ι where
  tie := .identity
  machines i m n :=
    ∃ limits steps, n = m.limited limits steps
      ∧ pace.relates m.config.limits m.steps limits steps ∧ holds i m
  escapes := pace.escapes

variable {pace : Pace} {holds : ι → Machine → Prop}

/-- A change to both that neither limits nor what is watched have a part in. -/
theorem twins_step {allowed : Native → Prop} {i : ι} {m n : Machine} {change : Machine → Machine}
    (oblivious : Machine.Oblivious allowed change) (kept : holds i m → holds i (change m))
    (alike : (twins pace holds).machines i m n)
    : (twins pace holds).machines i (change m) (change n) := by
  obtain ⟨limits, count, rfl, related, held⟩ := alike
  refine ⟨limits, count, oblivious.limited m limits count, ?_, kept held⟩
  rwa [oblivious.limits, oblivious.steps]

theorem twins_shown {i : ι} {m n : Machine} (alike : (twins pace holds).machines i m n)
    : Tie.identity.Machines m n := by
  obtain ⟨limits, steps, rfl, -, -⟩ := alike
  have whole := Tie.identity_whole
  have natives {handle : Handle} {x : Native} (_ : m.heap.natives.get handle = .ok x)
      : Tie.identity.Natives x x :=
    whole.natives_refl fun _ _ => whole.hostFunctions_refl fun _ _ => whole.programs_refl rfl _
  exact whole.machines natives rfl rfl rfl rfl rfl rfl rfl rfl rfl rfl rfl rfl rfl rfl

theorem twins_lawful (aside : ∀ {i m after}, m.Aside after → holds i m → holds i after)
    : (twins pace holds).Lawful :=
  lawful_of_whole Tie.identity_whole twins_shown fun _ oblivious change =>
    twins_step oblivious (aside (change _))

/-- An operation that agrees with itself by every likeness, whatever registries keep, leaves what they
keep alone.
-/
theorem aside_of_agree {ε α : Type} {x : Run ε α}
    (agree : ∀ {L : Likeness Unit}, L.Lawful → L.tie.Whole → ∃ related, L.Agree () x x related)
    (m : Machine)
    : m.Aside (x m).last := by
  have lawful : (twins Pace.same fun (_ : Unit) => m.Aside).Lawful :=
    twins_lawful fun change held => held.trans change
  have start : (twins Pace.same fun (_ : Unit) => m.Aside).machines () m m :=
    ⟨m.config.limits, m.steps, rfl, ⟨rfl, rfl⟩, .refl m⟩
  obtain ⟨related, agree⟩ := agree lawful Tie.identity_whole
  have outcomes := agree.outcome start
  generalize x m = outcome at *
  cases outcomes with
  | ok alike | error _ alike =>
      obtain ⟨_, _, -, -, held⟩ := alike
      exact held

/-- What twins agree in they also agree in where something holds of them that the operation keeps. -/
theorem twins_keeps {ε α β : Type} {i : ι} {x : Run ε α} {y : Run ε β} {related : α → β → Prop}
    (agree : (twins pace fun (_ : ι) _ => True).Agree i x y related)
    (keeps : ∀ m, holds i m → holds i (x m).last)
    : (twins pace holds).Agree i x y related := by
  refine ⟨?_⟩
  rintro m _ ⟨limits, steps, rfl, same, held⟩
  have outcomes := agree.outcome ⟨limits, steps, rfl, same, trivial⟩
  have kept := keeps m held
  generalize x m = outcome at *
  generalize y (m.limited limits steps) = other at *
  cases outcomes with
  | ok alike holds =>
      obtain ⟨limits, steps, rfl, same, -⟩ := alike
      exact .ok ⟨limits, steps, rfl, same, kept⟩ holds
  | error halt alike =>
      obtain ⟨limits, steps, rfl, same, -⟩ := alike
      exact .error halt ⟨limits, steps, rfl, same, kept⟩

/-- Twins stay so over every write of registries, if no more of them is watched than how many
entries from the host are open.
-/
theorem twins_seamless
    (busy : ∀ {i m after}, after.activeCalls = m.activeCalls → holds i m → holds i after)
    : (twins pace holds).Seamless :=
  seamless_of_whole Tie.identity_whole (twins_lawful fun change => busy change.activeCalls)
    fun _ oblivious active => twins_step oblivious (busy (active _))

-----------------------------------------------------------------------------------------
-- Runs
-----------------------------------------------------------------------------------------

/-- Twins keep pace if what is watched has no part in the count of instructions. -/
theorem twins_paced (regular : (twins pace holds).Regular)
    (counts : ∀ {i m} steps, holds i m → holds i { m with steps })
    : (twins pace holds).Paced where
  toRegular := regular
  depth := by
    rintro _ m _ ⟨limits, steps, rfl, related, -⟩
    exact pace.depth related
  redirects := by
    rintro _ m _ ⟨limits, steps, rfl, related, -⟩
    exact pace.redirects related
  charge := by
    rintro i m _ ⟨limits, steps, rfl, related, held⟩
    have charged := Vm.charge_eq (m.limited limits steps)
    simp only [Machine.limited] at charged
    rw [Vm.charge_eq m, Machine.limited, charged]
    rcases pace.count related with ⟨s, t, first, second, still⟩ | ⟨spent, same | escapes⟩
    · rw [first, second]
      exact .alike (.ok ⟨limits, t, rfl, still, counts s held⟩ rfl)
    · rw [spent, same]
      exact .alike (.error _ ⟨limits, steps, rfl, related, held⟩)
    · rw [spent]
      exact .escapes escapes _ _

/-- Requests that move what is retained change nothing else but how many guards are out. They come
to the same in machines with the same heap in which the same is collected.
-/
theorem answer_moves {r : Request} (moves : r.moves = true) (invoke : Invoke) {m n : Machine}
    (heap : n.heap = m.heap) (guards : n.guards = m.guards)
    (activeCalls : n.activeCalls = m.activeCalls)
    (collected
      : n.heap.collect n.surroundings [.table n.globals]
        = m.heap.collect m.surroundings [.table m.globals])
    : ∃ o heap guards, Course.answer invoke r m = .ok o { m with heap, guards }
      ∧ Course.answer invoke r n = .ok o { n with heap, guards } := by
  cases r with
  | collect =>
      rw [answer_collect, answer_collect]
      rcases Nat.eq_zero_or_pos m.activeCalls with idle | busy
      · have also : n.activeCalls = 0 := activeCalls.trans idle
        rw [Machine.collect_of_idle idle, Machine.collect_of_idle also]
        simp only [Machine.collectFrom, collected]
        exact ⟨_, _, m.guards, rfl, by rw [← guards]⟩
      · have also : 0 < n.activeCalls := activeCalls ▸ busy
        rw [Machine.collect_of_busy busy, Machine.collect_of_busy also]
        exact ⟨_, m.heap, m.guards, rfl, by rw [← heap, ← guards]⟩
  | retain value =>
      rw [answer_retain, answer_retain, heap]
      by_cases owned : m.heap.owns value = true
      · rw [if_pos owned, if_pos owned]
        exact ⟨_, _, m.guards, rfl, by rw [← guards]⟩
      · rw [if_neg owned, if_neg owned]
        exact ⟨_, m.heap, m.guards, rfl, by rw [← heap, ← guards]⟩
  | hold value =>
      rw [answer_hold, answer_hold, heap]
      by_cases owned : m.heap.owns value = true
      · rw [if_pos owned, if_pos owned]
        exact ⟨_, (m.hold value).2.heap, m.guards + 1, rfl,
          by simp only [Machine.hold, heap, guards]⟩
      · rw [if_neg owned, if_neg owned]
        exact ⟨_, m.heap, m.guards, rfl, by rw [← heap, ← guards]⟩
  | release slot => exact ⟨_, _, m.guards, rfl, by rw [← heap, ← guards]; rfl⟩
  | letGo guard => exact ⟨_, _, _, rfl, by rw [← heap, ← guards]; rfl⟩
  | _ => simp [Request.moves] at moves

/-- They have nothing to do with limits. -/
theorem answer_limited {r : Request} (moves : r.moves = true) (invoke : Invoke) (m : Machine)
    (limits : Limits) (steps : Nat)
    : ∃ o heap guards, Course.answer invoke r m = .ok o { m with heap, guards }
      ∧ Course.answer invoke r (m.limited limits steps)
        = .ok o (({ m with heap, guards } : Machine).limited limits steps) :=
  answer_moves moves invoke rfl rfl rfl rfl

/-- Twins are conducted by a watch if what is watched goes with it. -/
theorem twins_conducted {w : Watch ι} (regular : (twins pace holds).Regular)
    (counts : ∀ {i m} steps, holds i m → holds i { m with steps })
    (refl : ∀ i, w.onward i i) (trans : ∀ {i j k}, w.onward i j → w.onward j k → w.onward i k)
    (still : ∀ {i mark}, mark.moves = false → w.note mark i = i)
    (stays : ∀ {i fault m}, w.permits i ⟨.failed fault, m⟩ → ¬pace.escapes fault)
    (enters : ∀ {i m}, holds i m → holds (w.note .entered i) m.enter)
    (leaves : ∀ {i j m after} steps, holds i m → w.onward (w.note .entered i) j → holds j after
      → holds (w.note .left j) (after.leave steps) ∧ w.onward i (w.note .left j))
    (moves : ∀ {i m r o after} (invoke), r.moves = true → w.permits i ⟨.asks r, m⟩ → holds i m
      → Course.answer invoke r m = .ok o after
      → holds (w.note (.answered r o) i) after ∧ w.onward i (w.note (.answered r o) i))
    : (twins pace holds).Conducted w where
  toPaced := twins_paced regular counts
  refl := refl
  trans := trans
  still := still
  stays := stays
  quiet _ _ _ := Tie.identity_whole
  enters := by
    rintro i m _ ⟨limits, steps, rfl, related, held⟩
    exact ⟨limits, 0, rfl, pace.fresh related, enters held⟩
  leaves := by
    rintro i j m _ after _ ⟨limits, steps, rfl, before, held⟩ onward ⟨_, _, rfl, related, still⟩
    obtain ⟨left, further⟩ := leaves m.steps held onward still
    exact ⟨⟨_, steps, rfl, pace.restore before related, left⟩, further⟩
  moves := by
    rintro i m _ r s answers invoke asked retains permits ⟨limits, steps, rfl, related, held⟩
    obtain ⟨rfl, same⟩ := Tie.identity_whole.requests asked
    cases same
    obtain ⟨o, heap, guards, ran, also⟩ := answer_limited retains invoke m limits steps
    obtain ⟨kept, onward⟩ := moves invoke retains permits held ran
    exact ⟨o, o, _, _, ran, also, matched_eq ▸ rfl, ⟨limits, steps, rfl, related, kept⟩, onward⟩

end Likeness
end HookMachine
