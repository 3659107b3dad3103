import HookMachine.Proofs.Accounts.Sessions
import HookMachine.Proofs.Deeds.Confinement
import HookMachine.Proofs.Execution.Redirects

/-!
What is left of a runtime that is dropped. Its registries are empty, nothing stays retained for them, and
its functions fail ever after. Objects are left alone: redirects stay where hooks have put them, and so
do the metamethods that hooks have replaced.
-/

namespace HookMachine

variable {accounts : Accounts} {m after : Machine}

-----------------------------------------------------------------------------------------
-- Functions of a runtime that is dropped
-----------------------------------------------------------------------------------------

/-- The functions of a runtime fail in a machine and change nothing, whoever calls them. -/
structure Machine.Mute (m : Machine) : Prop where
  script {ref : NativeRef} {n : Native} {f : ScriptFunction} (invoke : Invoke)
    (arguments : List Value) (caller : Option ClosureRef) (depth : Nat)
    : m.heap.natives.get ref.handle = .ok n → n.body = .script f
      → Vm.callNative invoke ref arguments caller depth m
        = .error (.failed (.dropped (some f.name))) m
  method {ref : NativeRef} {n : Native} {method : ConnectionMethod} {index : Nat}
    {owner : TableRef} (invoke : Invoke) (arguments : List Value) (caller : Option ClosureRef)
    (depth : Nat)
    : m.heap.natives.get ref.handle = .ok n → n.body = .method method index owner
      → Vm.callNative invoke ref arguments caller depth m = .error (.failed (.dropped none)) m

theorem Machine.mute_of_dropped (dropped : m.alive = false) : m.Mute where
  script invoke arguments caller depth found runs := by
    refine (Run.bind_ok (Vm.native_of_get found)).trans ?_
    rw [runs]
    refine (Run.bind_get ..).trans ?_
    rw [dropped]
    rfl
  method invoke arguments caller depth found runs := by
    refine (Run.bind_ok (Vm.native_of_get found)).trans ?_
    rw [runs]
    refine (Run.bind_get ..).trans ?_
    rw [dropped]
    rfl

/-- A machine after further sessions of any contexts; between them other runtimes may have changed the
prototypes.
-/
inductive Machine.Outlives (m : Machine) : Machine → Prop
  | refl : m.Outlives m
  | session {now : Machine} (outlives : m.Outlives now) (context : ContextRef)
    (prototypes : PrototypeStore) (fuel : Nat) (program : HostProgram)
    : m.Outlives ((Plan.program none 0 program).run (Vm.call fuel) { now with context, prototypes }).last

namespace Machine

/-- A runtime that is dropped stays so throughout a session, by induction over its points. -/
theorem dropped_session (dropped : m.alive = false) (fuel : Nat) (program : HostProgram)
    : ((Plan.program none 0 program).run (Vm.call fuel) m).last.alive = false
      ∧ ∀ point ∈ program.trace fuel m, point.machine.alive = false := by
  let P (_ : List Point) (now : Machine) : Prop := now.alive = false
  have step (log : List Point) (p : Point) (now : Machine) (held : P log p.machine)
      (moves : p.Moves now) (_ : p.Opened log now)
      : P (log ++ [p]) now :=
    moves.alive.trans held
  have linked := program.linked fuel m
  refine ⟨linked.holds_last step [] dropped (Point.opened_of_ne (by nofun) _), fun point member => ?_⟩
  obtain ⟨earlier, later, split⟩ := List.append_of_mem member
  rw [split] at linked
  exact linked.holds_at step [] dropped (Point.opened_of_ne (by nofun) _)

theorem Outlives.dropped (outlives : m.Outlives after) (dropped : m.alive = false)
    : after.alive = false := by
  induction outlives with
  | refl => exact dropped
  | @session now _ context prototypes fuel program ih =>
      have turned : Machine.alive { now with context, prototypes } = false := ih
      exact (dropped_session turned fuel program).1

-----------------------------------------------------------------------------------------
-- What dropping leaves
-----------------------------------------------------------------------------------------

/-- Dropping changes no object. -/
theorem drop_eq (m : Machine)
    : ∃ retained out, m.drop
        = { m with
            heap.retained := retained
            guards := out
            alive := false
            environments := {}
            hooks := {}
            connections := #[] } := by
  obtain ⟨retained, out, same⟩ := m.letGoAll_eq m.registered
  refine ⟨retained, out, ?_⟩
  change (m.letGoAll m.registered).detached = _
  rw [same]
  rfl

/-- Redirects lead to the same where closures are the same, by induction over the hops. -/
theorem Hops.of_closures {hops : Nat} {f g : Value} (chain : m.Hops hops f g)
    (same : after.heap.closures = m.heap.closures)
    : after.Hops hops f g := by
  induction chain with
  | none => exact .none _
  | hop found redirect _ ih => exact .hop (same ▸ found) redirect ih

theorem Stays.of_closures {f : Value} (stays : m.Stays f)
    (same : after.heap.closures = m.heap.closures)
    : after.Stays f := by
  cases f with
  | closure ref =>
      obtain ⟨c, found, redirect⟩ := stays
      exact ⟨c, same ▸ found, redirect⟩
  | _ => trivial

/-- What a dropped runtime has left. -/
structure Leaves (accounts : Accounts) (m left : Machine) : Prop where
  registered : left.registered = []
  /-- Every slot that is taken belongs to somebody else. -/
  exact : accounts.Exact left
  /-- What the registries retained is given back. -/
  vacant {guard : Guard}
    : guard ∈ m.registered → ∀ value, left.heap.retained.get guard.slot ≠ .ok value
  tables : left.heap.tables = m.heap.tables
  closures : left.heap.closures = m.heap.closures
  natives : left.heap.natives = m.heap.natives
  /-- Calls that were redirected still are. -/
  redirected {f g : Value} : Vm.resolve f m = .ok g m → Vm.resolve f left = .ok g left
  /-- The functions of the runtime fail from now on, at every point of every later session. -/
  mute {now : Machine}
    : left.Outlives now → now.Mute
      ∧ ∀ (context : ContextRef) (prototypes : PrototypeStore) fuel (program : HostProgram),
          ∀ point ∈ program.trace fuel { now with context, prototypes }, point.machine.Mute

/-- What the registries have retained is nobody else's. -/
theorem vacant_of_drop {guard : Guard} (balanced : accounts.Balanced m)
    (member : guard ∈ m.registered) (value : Value)
    : m.drop.heap.retained.get guard.slot ≠ .ok value := by
  intro taken
  have owned := balanced.exact.owned
  rw [List.map_append, ← List.append_assoc] at owned
  have single := (owned.nodup_iff.mp m.heap.retained.nodup_handles)
  have left := balanced.drop.exact.owned
  rw [show m.drop.registered = [] from rfl, List.append_nil] at left
  have others := left.subset (Arena.mem_handles.mpr (Arena.contains_iff.mpr ⟨value, taken⟩))
  exact (List.nodup_append.mp single).2.2 _ others _ (List.mem_map_of_mem member) rfl

end Machine

/-- A runtime that is dropped has given back all that its registries retained and nothing else, its
functions fail ever after, and interceptions are left in force.
-/
theorem Machine.Lived.dropped_leaves (lived : m.Lived accounts) : m.Leaves accounts m.drop where
  registered := rfl
  exact := lived.balanced.drop.exact
  vacant member := vacant_of_drop lived.balanced member
  tables := by
    obtain ⟨retained, out, same⟩ := m.drop_eq
    rw [same]
  closures := by
    obtain ⟨retained, out, same⟩ := m.drop_eq
    rw [same]
  natives := by
    obtain ⟨retained, out, same⟩ := m.drop_eq
    rw [same]
  redirected {f g} resolved := by
    obtain ⟨retained, out, same⟩ := m.drop_eq
    rw [Vm.resolve_eq] at resolved ⊢
    rcases Vm.followRedirects_cases m m.config.limits.redirectDepth f with
      ⟨hops, h, within, chain, stays, ran⟩ | ⟨_, _, ran⟩ | ⟨_, _, _, _, _, _, ran⟩
    · cases resolved.symm.trans ran
      have kept : m.drop.heap.closures = m.heap.closures := by rw [same]
      have config : m.drop.config = m.config := by rw [same]
      rw [config]
      exact Vm.followRedirects_of_hops (chain.of_closures kept) (stays.of_closures kept) within
    · cases resolved.symm.trans ran
    · cases resolved.symm.trans ran
  mute {now} outlives := by
    have dropped := outlives.dropped rfl
    refine ⟨mute_of_dropped dropped, fun context prototypes fuel program point member => ?_⟩
    have turned : Machine.alive { now with context, prototypes } = false := dropped
    exact mute_of_dropped ((dropped_session turned fuel program).2 point member)

/-- A runtime is dropped while a closure is hooked, and the closure stays redirected. -/
theorem Machine.Lived.dropped_leaves_hooked
    : ∃ (accounts : Accounts) (m : Machine) (ref : ClosureRef), m.Lived accounts
        ∧ m.hooks.functions.length = 1 ∧ m.Leaves accounts m.drop
        ∧ ((m.drop.heap.closures.get ref.handle).toOption.bind (·.redirect)).isSome = true := by
  let replacement : Value := .native ⟨⟨1, 1, 0⟩⟩
  let program : HostProgram :=
    .ask (.assemble { code := #[.abc .ret 0 1 0] }) fun
      | .error _ => .finish []
      | .ok ref =>
          .ask (.load .runtime ref) fun
            | .error _ => .finish []
            | .ok f => .ask (.hook (.closure f) replacement) fun _ => .finish []
  let start : Machine := .create 1 {}
  have allows : Watch.accounts.Allows {} (program.trace 1 start) := by decide +kernel
  have lived := (Lived.created 1 {}).session 1 program allows
  have hooked
      : ((Plan.program none 0 program).run (Vm.call 1) start).last.hooks.functions.length = 1 := by
    decide +kernel
  have redirected : ((((Plan.program none 0 program).run (Vm.call 1) start).last.heap.closures.get
      ⟨1, 0, 0⟩).toOption.bind (·.redirect)).isSome = true := by
    decide +kernel
  generalize ((Plan.program none 0 program).run (Vm.call 1) start).last = m at lived hooked redirected
  have leaves := lived.dropped_leaves
  refine ⟨_, m, ⟨⟨1, 0, 0⟩⟩, lived, hooked, leaves, ?_⟩
  rw [leaves.closures]
  exact redirected

end HookMachine
