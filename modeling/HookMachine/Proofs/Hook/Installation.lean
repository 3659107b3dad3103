import HookMachine.Arena.View
import HookMachine.Hook.Interception
import HookMachine.Proofs.Execution.Outcomes

/-!
Hooking a closure and unhooking it, as one change of the machine each. Everything that can go
wrong goes wrong before the redirect changes, and what was done until then is taken back.
-/

namespace HookMachine

/-- The arenas of a heap mint handles of that heap. -/
structure Heap.Minted (heap : Heap) : Prop where
  tables : heap.tables.heap = heap.id
  closures : heap.closures.heap = heap.id
  natives : heap.natives.heap = heap.id

namespace Machine

/-- A closure and the copy of it that a hook hands out. -/
def copied (m : Machine) (c : Closure) : ClosureRef × Machine :=
  let (handle, closures) := m.heap.closures.insert { c with redirect := none, marked := false }
  (⟨handle⟩, { m with heap.closures := closures })

/-- The hook of a closure with contents `c`, and the machine that retains what it needs. -/
def guarded (m : Machine) (ref : ClosureRef) (c : Closure) (replacement : Value)
    : FunctionHook × Machine :=
  let (copy, m) := m.copied c
  let (target, m) := m.hold (.closure ref)
  let (former, m) := m.hold (.closure copy)
  let (replacement, m) := m.hold replacement
  ({ target, former, replacement }, m)

/-- A closure sent elsewhere, with the entry for it changed. -/
def redirected (m : Machine) (ref : ClosureRef) (target : Option Value) (hooks : HookRegistry)
    : Machine :=
  { m with
    heap.closures := m.heap.closures.modify ref.handle fun c => { c with redirect := target }
    hooks }

/-- A closure with contents `c` hooked. -/
def hooked (m : Machine) (ref : ClosureRef) (c : Closure) (replacement : Value) : Machine :=
  let (hook, m) := m.guarded ref c replacement
  (m.redirected ref (some replacement) (m.hooks.insertFunction ref hook)).letGoAll
    ((m.hooks.function? ref).toList.flatMap FunctionHook.guards)

/-- A closure unhooked. -/
def unhooked (m : Machine) (ref : ClosureRef) (hook : FunctionHook) : Machine :=
  (m.redirected ref none (m.hooks.eraseFunction ref)).letGoAll hook.guards

/-- What is left of hooking a closure whose replacement belongs to another heap: the copy that
nobody keeps.
-/
def abandoned (m : Machine) (ref : ClosureRef) (c : Closure) : Machine :=
  let (copy, m) := m.copied c
  let (target, m) := m.hold (.closure ref)
  let (former, m) := m.hold (.closure copy)
  m.letGoAll [former, target]

@[simp]
theorem hooks_copied (m : Machine) (c : Closure) : (m.copied c).2.hooks = m.hooks :=
  rfl

@[simp]
theorem hooks_hold (m : Machine) (value : Value) : (m.hold value).2.hooks = m.hooks :=
  rfl

@[simp]
theorem hooks_redirected (m : Machine) (ref : ClosureRef) (target : Option Value)
    (hooks : HookRegistry)
    : (m.redirected ref target hooks).hooks = hooks :=
  rfl

/-- Giving back guards changes what is retained only. -/
theorem letGoAll_eq (m : Machine) (guards : List Guard)
    : ∃ retained out, m.letGoAll guards = { m with heap.retained := retained, guards := out } := by
  induction guards generalizing m with
  | nil => exact ⟨_, _, rfl⟩
  | cons guard guards ih =>
      obtain ⟨retained, out, same⟩ := ih (m.letGo guard)
      exact ⟨retained, out, same⟩

@[simp]
theorem hooks_letGoAll (m : Machine) (guards : List Guard)
    : (m.letGoAll guards).hooks = m.hooks := by
  obtain ⟨_, _, same⟩ := m.letGoAll_eq guards
  rw [same]

@[simp]
theorem tables_letGoAll (m : Machine) (guards : List Guard)
    : (m.letGoAll guards).heap.tables = m.heap.tables := by
  obtain ⟨_, _, same⟩ := m.letGoAll_eq guards
  rw [same]

@[simp]
theorem closures_letGoAll (m : Machine) (guards : List Guard)
    : (m.letGoAll guards).heap.closures = m.heap.closures := by
  obtain ⟨_, _, same⟩ := m.letGoAll_eq guards
  rw [same]

@[simp]
theorem natives_letGoAll (m : Machine) (guards : List Guard)
    : (m.letGoAll guards).heap.natives = m.heap.natives := by
  obtain ⟨_, _, same⟩ := m.letGoAll_eq guards
  rw [same]

@[simp]
theorem config_letGoAll (m : Machine) (guards : List Guard)
    : (m.letGoAll guards).config = m.config := by
  obtain ⟨_, _, same⟩ := m.letGoAll_eq guards
  rw [same]

end Machine

variable {m : Machine}

namespace Vm

theorem hold_of_owns {value : Value} (owned : m.heap.owns value = true)
    : Vm.hold value m = .ok (m.hold value).1 (m.hold value).2 :=
  Run.bind_ok (checkOwner_of_owns owned)

theorem hold_of_foreign {value : Value} (foreign : m.heap.owns value = false)
    : Vm.hold value m = .error (.failed .foreignHandle) m :=
  Run.bind_error (checkOwner_of_foreign foreign)

theorem clone_of_get {ref : ClosureRef} {c : Closure} (minted : m.heap.Minted)
    (found : m.heap.closures.get ref.handle = .ok c)
    : clone (.closure ref) m = .ok (some (.closure (m.copied c).1)) (m.copied c).2 := by
  have owned : m.heap.owns (.closure ref) = true := by
    simp [Heap.owns, Value.handle?, Arena.heap_of_get found, minted.closures]
  refine (Run.bind_ok (checkOwner_of_owns owned)).trans ?_
  exact (Run.bind_ok (closure_of_get found)).trans rfl

/-- A closure that does not exist is not copied, and the machine stays as it is. -/
theorem clone_of_miss {ref : ClosureRef} {miss : Miss}
    (missed : m.heap.closures.get ref.handle = .error miss)
    : ∃ fault, clone (.closure ref) m = .error (.failed fault) m := by
  rcases owned : m.heap.owns (.closure ref) with _ | _
  · exact ⟨_, Run.bind_error (checkOwner_of_foreign owned)⟩
  · refine ⟨.ofMiss miss, (Run.bind_ok (checkOwner_of_owns owned)).trans ?_⟩
    exact Run.bind_error (closure_of_miss missed)

theorem setRedirect_of_get {ref : ClosureRef} {c : Closure} {target : Option Value}
    (owned : ∀ value, target = some value → m.heap.owns value = true)
    (found : m.heap.closures.get ref.handle = .ok c)
    : setRedirect ref target m = .ok () (m.redirected ref target m.hooks) := by
  have update
      : updateClosure ref (fun c => { c with redirect := target }) m
        = .ok () (m.redirected ref target m.hooks) :=
    Run.bind_ok (closure_of_get found)
  cases target with
  | none => exact update
  | some value => exact (Run.bind_ok (checkOwner_of_owns (owned value rfl))).trans update

end Vm

namespace Hook

variable {ref : ClosureRef} {c : Closure} {replacement : Value}

theorem checkCallable_of_isFunction (callable : replacement.isFunction = true)
    (subject : String)
    : checkCallable replacement subject m = .ok () m := by
  rw [checkCallable, if_pos callable]
  rfl

/-- The copy of a closure belongs to the heap. -/
theorem owns_copied (minted : m.heap.Minted) (c : Closure)
    : m.heap.owns (.closure (m.copied c).1) = true := by
  have found := Arena.heap_of_get
    (Arena.get_insert_self m.heap.closures { c with redirect := none, marked := false })
  rw [Arena.heap_insert, minted.closures] at found
  simpa [Heap.owns, Value.handle?, Machine.copied] using found

/-- Until its replacement is retained, hooking a closure comes down to copying it. -/
theorem install_eq (minted : m.heap.Minted)
    (found : m.heap.closures.get ref.handle = .ok c) (callable : replacement.isFunction = true)
    (other : (replacement == .closure ref) = false)
    : install (.closure ref) replacement m
      = (do
          let copied := m.copied c
          let held := copied.2.hold (.closure ref)
          let former := held.2.hold (.closure copied.1)
          let replacementGuard ←
            Run.onHalt (Vm.hold replacement) (·.letGoAll [former.1, held.1])
          let hook : FunctionHook :=
            { target := held.1, former := former.1, replacement := replacementGuard }
          Run.onHalt (Vm.setRedirect ref (some replacement)) (·.letGoAll hook.guards)
          let previous := (← get).hooks.function? ref
          modify fun m => { m with hooks := m.hooks.insertFunction ref hook }
          if let some previous := previous then
            modify (·.letGoAll previous.guards)
          return some copied.1 : Action (Option ClosureRef))
          (((m.copied c).2.hold (.closure ref)).2.hold (.closure (m.copied c).1)).2 := by
  have owned : m.heap.owns (.closure ref) = true := by
    simp [Heap.owns, Value.handle?, Arena.heap_of_get found, minted.closures]
  refine (Run.bind_ok (checkCallable_of_isFunction callable _)).trans ?_
  simp only [other, Bool.false_eq_true, if_false]
  refine (Run.bind_ok (Run.lift_ok (Vm.clone_of_get minted found))).trans ?_
  refine (Run.bind_ok (Run.lift_ok (Vm.hold_of_owns ?_))).trans ?_
  · exact owned
  · exact Run.bind_ok (Run.onHalt_ok (Run.lift_ok (Vm.hold_of_owns (owns_copied minted c))))

/-- Hooking a closure that exists with a function of the heap succeeds. -/
theorem install_of_get (minted : m.heap.Minted)
    (found : m.heap.closures.get ref.handle = .ok c) (callable : replacement.isFunction = true)
    (other : (replacement == .closure ref) = false) (owned : m.heap.owns replacement = true)
    : install (.closure ref) replacement m
      = .ok (some (m.copied c).1) (m.hooked ref c replacement) := by
  rw [install_eq minted found callable other]
  refine (Run.bind_ok (Run.onHalt_ok (Run.lift_ok (Vm.hold_of_owns ?_)))).trans ?_
  · exact owned
  refine (Run.bind_ok (Run.onHalt_ok (Run.lift_ok (Vm.setRedirect_of_get (c := c) ?_ ?_)))).trans ?_
  · rintro value ⟨⟩
    exact owned
  · exact Arena.get_insert_of_get _ found
  refine (Run.bind_get ..).trans ((Run.bind_ok rfl).trans ?_)
  cases previous : m.hooks.function? ref <;>
    simp only [Machine.hooked, Machine.guarded, Machine.hooks_redirected, Machine.hooks_hold,
      Machine.hooks_copied, previous] <;>
    rfl

/-- Hooking a closure with a function of another heap fails, and leaves a copy behind. -/
theorem install_of_foreign (minted : m.heap.Minted)
    (found : m.heap.closures.get ref.handle = .ok c) (callable : replacement.isFunction = true)
    (other : (replacement == .closure ref) = false) (foreign : m.heap.owns replacement = false)
    : install (.closure ref) replacement m
      = .error (.failed (.fault .foreignHandle)) (m.abandoned ref c) := by
  rw [install_eq minted found callable other]
  exact Run.bind_error (Run.onHalt_error (Run.lift_error (Vm.hold_of_foreign foreign)))

/-- Hooking succeeds, or ends with a copy that nobody keeps, or changes nothing. -/
theorem install_cases (minted : m.heap.Minted) (target replacement : Value)
    : (∃ ref c, target = .closure ref ∧ m.heap.closures.get ref.handle = .ok c
          ∧ m.heap.owns replacement = true
          ∧ install target replacement m
            = .ok (some (m.copied c).1) (m.hooked ref c replacement))
      ∨ (∃ ref c, target = .closure ref ∧ m.heap.closures.get ref.handle = .ok c
          ∧ m.heap.owns replacement = false
          ∧ install target replacement m
            = .error (.failed (.fault .foreignHandle)) (m.abandoned ref c))
      ∨ (∃ ref fault, target = .closure ref ∧ (∀ c, m.heap.closures.get ref.handle ≠ .ok c)
          ∧ install target replacement m = .error (.failed (.fault fault)) m)
      ∨ (∃ refusal, install target replacement m = .error (.failed (.refused refusal)) m)
      ∨ install target replacement m = .ok none m := by
  cases target with
  | native ref => exact .inr (.inr (.inr (.inr rfl)))
  | closure ref =>
      by_cases callable : replacement.isFunction = true
      · rcases same : replacement == .closure ref with _ | _
        · rcases found : m.heap.closures.get ref.handle with miss | c
          · obtain ⟨fault, missed⟩ := Vm.clone_of_miss found
            refine .inr (.inr (.inl ⟨ref, fault, rfl, by simp [found], ?_⟩))
            refine (Run.bind_ok (checkCallable_of_isFunction callable _)).trans ?_
            simp only [same, Bool.false_eq_true, if_false]
            exact Run.bind_error (Run.lift_error missed)
          · rcases owned : m.heap.owns replacement with _ | _
            · exact .inr (.inl ⟨ref, c, rfl, found, rfl,
                install_of_foreign minted found callable same owned⟩)
            · exact .inl ⟨ref, c, rfl, found, rfl,
                install_of_get minted found callable same owned⟩
        · refine .inr (.inr (.inr (.inl ⟨.selfReplacement, ?_⟩)))
          refine (Run.bind_ok (checkCallable_of_isFunction callable _)).trans ?_
          rw [if_pos same]
          rfl
      · refine .inr (.inr (.inr (.inl ⟨.needs "hook replacement" .function replacement.kind,
          Run.bind_error ?_⟩)))
        rw [checkCallable, if_neg callable]
        rfl
  | _ => exact .inr (.inr (.inr (.inl ⟨_, rfl⟩)))

/-- What is left when hooking a closure with contents `c` succeeds. -/
theorem eq_of_install {copy : ClosureRef} {after : Machine} (minted : m.heap.Minted)
    (found : m.heap.closures.get ref.handle = .ok c)
    (ran : install (.closure ref) replacement m = .ok (some copy) after)
    : copy = (m.copied c).1 ∧ after = m.hooked ref c replacement := by
  rcases install_cases minted (.closure ref) replacement with
    ⟨other, held, same, there, _, hooked⟩ | ⟨_, _, _, _, _, failed⟩ | ⟨_, _, _, _, failed⟩
      | ⟨_, failed⟩ | none
  · obtain rfl := Value.closure.inj same
    obtain rfl : c = held := Except.ok.inj (found.symm.trans there)
    rw [ran] at hooked
    obtain ⟨same_copy, rfl⟩ := EStateM.Result.ok.inj hooked
    exact ⟨Option.some.inj same_copy, rfl⟩
  · cases ran.symm.trans failed
  · cases ran.symm.trans failed
  · cases ran.symm.trans failed
  · cases ran.symm.trans none

/-- Unhooking a closure that exists and has a hook succeeds. -/
theorem restore_of_get {hook : FunctionHook} (entry : m.hooks.function? ref = some hook)
    (found : m.heap.closures.get ref.handle = .ok c)
    : restore (.closure ref) m = .ok true (m.unhooked ref hook) := by
  refine (Run.bind_get ..).trans ?_
  rw [entry]
  have redirected
      : Vm.setRedirect ref none { m with hooks := m.hooks.eraseFunction ref }
        = .ok () (m.redirected ref none (m.hooks.eraseFunction ref)) :=
    Vm.setRedirect_of_get (by simp) found
  exact (Run.bind_ok rfl).trans (Run.bind_ok (Run.onHalt_ok (Run.lift_ok redirected)))

/-- Unhooking a closure without a hook changes nothing. -/
theorem restore_of_none (entry : m.hooks.function? ref = none)
    : restore (.closure ref) m = .ok false m := by
  refine (Run.bind_get ..).trans ?_
  rw [entry]
  rfl

end Hook
end HookMachine
