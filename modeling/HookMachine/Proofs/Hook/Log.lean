import HookMachine.Proofs.Hook.Entries
import HookMachine.Proofs.Hook.Trace

/-!
What the log of a run says about hooks, and that the registry and the redirects agree with it.
Every closure that is made has no redirect, so a step away from hooks cannot spoil the
agreement.
-/

namespace HookMachine

-----------------------------------------------------------------------------------------
-- What a log says
-----------------------------------------------------------------------------------------

/-- The replacement and the copy of the last hook that a closure was given since it was last freed
of one; the last event comes first.
-/
def hookOf (ref : ClosureRef) : List HookEvent → Option (Value × ClosureRef)
  | [] => none
  | .installed target _ replacement copy :: earlier =>
      if target = ref then some (replacement, copy) else hookOf ref earlier
  | .restored target :: earlier => if target = ref then none else hookOf ref earlier
  | .collected _ :: earlier => hookOf ref earlier

/-- Whether an event leaves a closure where it is; only a collection may not. -/
def HookEvent.keeps (ref : ClosureRef) : HookEvent → Prop
  | .collected kept => kept ref = true
  | _ => True

/-- A closure runs the same code on the same variables as another one. -/
structure Closure.Alike (c other : Closure) : Prop where
  prototype : c.prototype = other.prototype
  upvalues : c.upvalues = other.upvalues
  environment : c.environment = other.environment

theorem Closure.Alike.refl (c : Closure) : c.Alike c :=
  ⟨rfl, rfl, rfl⟩

theorem Closure.Alike.symm {c other : Closure} (alike : c.Alike other) : other.Alike c :=
  ⟨alike.prototype.symm, alike.upvalues.symm, alike.environment.symm⟩

theorem Closure.Alike.trans {first second third : Closure} (left : first.Alike second)
    (right : second.Alike third)
    : first.Alike third where
  prototype := left.prototype.trans right.prototype
  upvalues := left.upvalues.trans right.upvalues
  environment := left.environment.trans right.environment

-----------------------------------------------------------------------------------------
-- What hooking does to the registry and to closures
-----------------------------------------------------------------------------------------

namespace Machine

variable {m middle after : Machine} {ref other copy : ClosureRef} {c found : Closure}
  {replacement : Value} {events more : List HookEvent} {event : HookEvent}

theorem hooks_hooked (m : Machine) (ref : ClosureRef) (c : Closure) (replacement : Value)
    : (m.hooked ref c replacement).hooks
      = m.hooks.insertFunction ref (m.guarded ref c replacement).1 := by
  simp only [hooked, hooks_letGoAll]
  rfl

theorem hooks_unhooked (m : Machine) (ref : ClosureRef) (hook : FunctionHook)
    : (m.unhooked ref hook).hooks = m.hooks.eraseFunction ref := by
  simp only [unhooked, hooks_letGoAll]
  rfl

/-- The closures once one was copied: the copy is new and has no redirect. -/
theorem get_copied
    : (m.copied c).2.heap.closures.get other.handle = .ok found
      ↔ other = (m.copied c).1 ∧ found = { c with redirect := none, marked := false }
        ∨ m.heap.closures.get other.handle = .ok found := by
  obtain ⟨handle⟩ := other
  have inserted
      : (m.copied c).2.heap.closures.get handle = .ok found
        ↔ handle = (m.copied c).1.handle ∧ found = { c with redirect := none, marked := false }
          ∨ m.heap.closures.get handle = .ok found :=
    Arena.get_insert
  rw [inserted, ← ClosureRef.mk.injEq]

/-- The copy of a closure is none of those that were there. -/
theorem get_copied_fresh (m : Machine) (c found : Closure)
    : m.heap.closures.get (m.copied c).1.handle ≠ .ok found :=
  Arena.get_insert_fresh m.heap.closures _ found

/-- The closures once the redirect of one was changed. -/
theorem get_redirected {target : Option Value} {hooks : HookRegistry}
    : (m.redirected ref target hooks).heap.closures.get other.handle = .ok found
      ↔ ∃ before, m.heap.closures.get other.handle = .ok before
          ∧ found = { before with redirect := if other = ref then target else before.redirect }
        := by
  obtain ⟨handle⟩ := other
  obtain ⟨changed⟩ := ref
  refine Arena.get_modify.trans (exists_congr fun before => and_congr_right fun _ => ?_)
  by_cases same : handle = changed <;> simp [same]

/-- The closures once one was hooked. -/
theorem get_hooked
    : (m.hooked ref c replacement).heap.closures.get other.handle = .ok found
      ↔ ∃ before, (m.copied c).2.heap.closures.get other.handle = .ok before
          ∧ found
            = { before with
                redirect := if other = ref then some replacement else before.redirect } := by
  simp only [hooked, closures_letGoAll]
  exact get_redirected

/-- The closures once one was unhooked. -/
theorem get_unhooked {hook : FunctionHook}
    : (m.unhooked ref hook).heap.closures.get other.handle = .ok found
      ↔ ∃ before, m.heap.closures.get other.handle = .ok before
          ∧ found = { before with redirect := if other = ref then none else before.redirect }
        := by
  simp only [unhooked, closures_letGoAll]
  exact get_redirected

/-- Abandoning a hook leaves hooks alone. -/
theorem quiet_abandoned (m : Machine) (ref : ClosureRef) (c : Closure)
    : m.Quiet (m.abandoned ref c) := by
  have closures : (m.abandoned ref c).heap.closures = (m.copied c).2.heap.closures := by
    simp only [abandoned, closures_letGoAll]
    rfl
  constructor
  case functions =>
    simp only [abandoned, hooks_letGoAll]
    rfl
  case kept =>
    intro handle found held
    rw [closures]
    exact Arena.get_insert_of_get _ held
  case fresh =>
    intro handle found held
    rw [closures] at held
    rcases Arena.get_insert.mp held with ⟨_, rfl⟩ | old
    · exact .inr rfl
    · exact .inl old

-----------------------------------------------------------------------------------------
-- Contents that a log remembers
-----------------------------------------------------------------------------------------

/-- A closure that was hooked, and the copy that was handed out then, are as they were but for
their redirects, for as long as collections keep them.
-/
def Remembers (m : Machine) (events : List HookEvent) : Prop :=
  ∀ later earlier target original replacement copy ref,
    events = later ++ .installed target original replacement copy :: earlier
      → ref = target ∨ ref = copy → (∀ event ∈ later, event.keeps ref)
      → ∃ c, m.heap.closures.get ref.handle = .ok c ∧ c.Alike original

theorem Remembers.quiet (remembers : m.Remembers events) (step : m.Quiet after)
    : after.Remembers events := by
  intro later earlier target original replacement copy ref split concerns kept
  obtain ⟨c, found, alike⟩ := remembers _ _ _ _ _ _ ref split concerns kept
  exact ⟨c, step.kept found, alike⟩

/-- What is remembered stays so over an event that leaves the closures that it keeps alike, and
what a new hook has to do with is remembered from then on.
-/
theorem Remembers.extend (remembers : m.Remembers events)
    (stay : ∀ ref c, event.keeps ref → m.heap.closures.get ref.handle = .ok c
      → ∃ found, after.heap.closures.get ref.handle = .ok found ∧ found.Alike c)
    (new : ∀ target original replacement copy ref,
      event = .installed target original replacement copy → ref = target ∨ ref = copy
        → ∃ c, after.heap.closures.get ref.handle = .ok c ∧ c.Alike original)
    : after.Remembers (event :: events) := by
  intro later earlier target original replacement copy ref split concerns kept
  cases later with
  | nil =>
      obtain ⟨same, _⟩ := List.cons.inj split
      exact new _ _ _ _ ref same concerns
  | cons last later =>
      obtain ⟨rfl, rest⟩ := List.cons.inj split
      obtain ⟨kept_last, kept⟩ := List.forall_mem_cons.mp kept
      obtain ⟨c, found, alike⟩ := remembers _ _ _ _ _ _ ref rest concerns kept
      obtain ⟨still, there, same⟩ := stay ref c kept_last found
      exact ⟨still, there, same.trans alike⟩

-----------------------------------------------------------------------------------------
-- Agreement
-----------------------------------------------------------------------------------------

/-- The registry and the redirects of a machine are as a log says. -/
structure Agrees (m : Machine) (events : List HookEvent) : Prop where
  /-- The entry of a closure keeps its last replacement and the copy made then. -/
  entries (ref : ClosureRef)
    : (m.hooks.function? ref).map (fun hook => (hook.replacement.value, hook.former.value))
      = (hookOf ref events).map fun hook => (hook.1, .closure hook.2)
  redirects {ref : ClosureRef} {c : Closure}
    : m.heap.closures.get ref.handle = .ok c → c.redirect = (hookOf ref events).map Prod.fst
  /-- A closure that is hooked exists. -/
  live {ref : ClosureRef} {hook : Value × ClosureRef}
    : hookOf ref events = some hook → ∃ c, m.heap.closures.get ref.handle = .ok c
  remembers : m.Remembers events

namespace Agrees

theorem function?_isSome (agrees : m.Agrees events) (ref : ClosureRef)
    : (m.hooks.function? ref).isSome = (hookOf ref events).isSome := by
  simpa only [Option.isSome_map] using congrArg Option.isSome (agrees.entries ref)

/-- A closure with an entry exists. -/
theorem exists_of_function? (agrees : m.Agrees events) {hook : FunctionHook}
    (entry : m.hooks.function? ref = some hook)
    : ∃ c, m.heap.closures.get ref.handle = .ok c := by
  have said : (hookOf ref events).isSome = true := by
    rw [← agrees.function?_isSome, entry]
    rfl
  obtain ⟨_, said⟩ := Option.isSome_iff_exists.mp said
  exact agrees.live said

/-- A closure that does not exist is not hooked. -/
theorem hookOf_of_missing (agrees : m.Agrees events)
    (missing : ∀ c, m.heap.closures.get ref.handle ≠ .ok c)
    : hookOf ref events = none := by
  cases said : hookOf ref events with
  | none => rfl
  | some hook =>
      obtain ⟨c, found⟩ := agrees.live said
      exact absurd found (missing c)

/-- Before anything happened, nothing is hooked. -/
theorem start (empty : m.hooks.functions = [])
    (plain : ∀ handle c, m.heap.closures.get handle = .ok c → c.redirect = none)
    : m.Agrees [] where
  entries ref := by
    unfold HookRegistry.function?
    rw [empty]
    rfl
  redirects found := plain _ _ found
  live said := by cases said
  remembers := by
    intro later earlier target original replacement copy ref split
    simp at split

/-- A step that leaves hooks alone leaves the agreement: a new closure is not hooked. -/
theorem quiet (agrees : m.Agrees events) (step : m.Quiet after) : after.Agrees events where
  entries ref := by
    have entries := agrees.entries ref
    unfold HookRegistry.function? at entries ⊢
    rwa [step.functions]
  redirects {ref c} found := by
    rcases step.fresh found with old | plain
    · exact agrees.redirects old
    · by_cases known : ∃ old, m.heap.closures.get ref.handle = .ok old
      · obtain ⟨old, held⟩ := known
        have same : old = c := Except.ok.inj ((step.kept held).symm.trans found)
        exact agrees.redirects (same ▸ held)
      · rw [plain, agrees.hookOf_of_missing (not_exists.mp known)]
        rfl
  live said := by
    obtain ⟨c, found⟩ := agrees.live said
    exact ⟨c, step.kept found⟩
  remembers := agrees.remembers.quiet step

/-- The closure that is hooked goes to its replacement from then on, and its copy does not. -/
theorem hooked (agrees : m.Agrees events) (found : m.heap.closures.get ref.handle = .ok c)
    (replacement : Value)
    : (m.hooked ref c replacement).Agrees
        (.installed ref c replacement (m.copied c).1 :: events) where
  entries other := by
    rw [hooks_hooked, HookRegistry.function?_insertFunction, hookOf]
    by_cases same : other = ref
    · subst same
      rw [if_pos rfl, if_pos rfl]
      rfl
    · rw [if_neg same, if_neg (Ne.symm same)]
      exact agrees.entries other
  redirects {other held} there := by
    obtain ⟨before, source, rfl⟩ := get_hooked.mp there
    rw [hookOf]
    by_cases same : other = ref
    · subst same
      simp
    · rw [if_neg (Ne.symm same)]
      simp only [if_neg same]
      rcases get_copied.mp source with ⟨rfl, rfl⟩ | old
      · rw [agrees.hookOf_of_missing (m.get_copied_fresh c)]
        rfl
      · exact agrees.redirects old
  live {other hook} said := by
    have known : ∃ before, m.heap.closures.get other.handle = .ok before := by
      by_cases same : ref = other
      · exact same ▸ ⟨c, found⟩
      · rw [hookOf, if_neg same] at said
        exact agrees.live said
    obtain ⟨before, held⟩ := known
    exact ⟨_, get_hooked.mpr ⟨before, get_copied.mpr (.inr held), rfl⟩⟩
  remembers := by
    apply agrees.remembers.extend
    · intro other before _ held
      exact ⟨_, get_hooked.mpr ⟨before, get_copied.mpr (.inr held), rfl⟩, rfl, rfl, rfl⟩
    · rintro target original replacement copy other ⟨⟩ (rfl | rfl)
      · exact ⟨_, get_hooked.mpr ⟨c, get_copied.mpr (.inr found), rfl⟩, rfl, rfl, rfl⟩
      · exact ⟨_, get_hooked.mpr ⟨_, get_copied.mpr (.inl ⟨rfl, rfl⟩), rfl⟩, rfl, rfl, rfl⟩

/-- The closure that is freed of its hook goes to itself again. -/
theorem unhooked (agrees : m.Agrees events) (ref : ClosureRef) (hook : FunctionHook)
    : (m.unhooked ref hook).Agrees (.restored ref :: events) where
  entries other := by
    rw [hooks_unhooked, HookRegistry.function?_eraseFunction, hookOf]
    by_cases same : other = ref
    · rw [if_pos same, if_pos same.symm]
      rfl
    · rw [if_neg same, if_neg (Ne.symm same)]
      exact agrees.entries other
  redirects {other held} there := by
    obtain ⟨before, source, rfl⟩ := get_unhooked.mp there
    rw [hookOf]
    by_cases same : other = ref
    · simp [same]
    · rw [if_neg (Ne.symm same)]
      simp only [if_neg same]
      exact agrees.redirects source
  live {other said_hook} said := by
    by_cases same : ref = other
    · rw [hookOf, if_pos same] at said
      cases said
    · rw [hookOf, if_neg same] at said
      obtain ⟨before, held⟩ := agrees.live said
      exact ⟨_, get_unhooked.mpr ⟨before, held, rfl⟩⟩
  remembers := by
    apply agrees.remembers.extend
    · intro other before _ held
      exact ⟨_, get_unhooked.mpr ⟨before, held, rfl⟩, rfl, rfl, rfl⟩
    · rintro target original replacement copy other ⟨⟩

theorem installed (agrees : m.Agrees events) (minted : m.heap.Minted)
    (found : m.heap.closures.get ref.handle = .ok c)
    (ran : Hook.install (.closure ref) replacement m = .ok (some copy) after)
    : after.Agrees (.installed ref c replacement copy :: events) := by
  obtain ⟨rfl, rfl⟩ := Hook.eq_of_install minted found ran
  exact agrees.hooked found replacement

theorem restored (agrees : m.Agrees events)
    (ran : Hook.restore (.closure ref) m = .ok true after)
    : after.Agrees (.restored ref :: events) := by
  cases entry : m.hooks.function? ref with
  | none =>
      rw [Hook.restore_of_none entry] at ran
      cases ran
  | some hook =>
      obtain ⟨c, found⟩ := agrees.exists_of_function? entry
      rw [Hook.restore_of_get entry found] at ran
      obtain ⟨-, rfl⟩ := EStateM.Result.ok.inj ran
      exact agrees.unhooked ref hook

/-- Where there is no hook, unhooking changes nothing. -/
theorem eq_of_restore {target : Value} (agrees : m.Agrees events)
    (ran : Hook.restore target m = .ok false after)
    : after = m := by
  cases target with
  | closure ref =>
      cases entry : m.hooks.function? ref with
      | none =>
          rw [Hook.restore_of_none entry] at ran
          exact (EStateM.Result.ok.inj ran).2.symm
      | some hook =>
          obtain ⟨c, found⟩ := agrees.exists_of_function? entry
          rw [Hook.restore_of_get entry found] at ran
          cases ran
  | _ => exact (EStateM.Result.ok.inj ran).2.symm

/-- A run keeps the agreement with its log, by induction over the run. -/
theorem trace (agrees : m.Agrees events) (trace : m.Trace more after)
    : after.Agrees (more ++ events) := by
  induction trace with
  | start => exact agrees
  | quiet _ step ih => exact ih.quiet step
  | installed _ minted found ran ih => exact ih.installed minted found ran
  | restored _ ran ih => exact ih.restored ran

end Agrees
end Machine
end HookMachine
