import HookMachine.Proofs.Accounts.Settlement
import HookMachine.Proofs.Soundness.Lifetime

/-!
Accounts over the life of a runtime. The host, and natives for it, retain values and give them back
in sessions, with or without guards; at every point of every session the slots that are taken are
those of the registries and those that are in accounts, whatever fails on the way.
-/

namespace HookMachine

-----------------------------------------------------------------------------------------
-- What is retained and given back
-----------------------------------------------------------------------------------------

namespace Accounts

/-- The accounts when a guard gives back its slot. -/
def withoutGuard (accounts : Accounts) (slot : Handle) : Accounts :=
  { accounts with guards := accounts.guards.eraseP (·.slot == slot) }

/-- The accounts when a slot is retained without a guard. -/
def plusSlot (accounts : Accounts) (slot : Handle) (value : Value) : Accounts :=
  { accounts with direct := (slot, value) :: accounts.direct }

/-- The accounts when a slot is released. -/
def withoutSlot (accounts : Accounts) (slot : Handle) : Accounts :=
  { accounts with direct := accounts.direct.eraseP (·.1 == slot) }

end Accounts

/-- The slot that a request is to give back for a guard. -/
def Mark.givesBack : Mark → List Handle
  | .asks (.letGo guard) => [guard.slot]
  | _ => []

/-- The slot that a request is to release. -/
def Mark.releases : Mark → List Handle
  | .asks (.release slot) => [slot]
  | _ => []

/-- Keeps accounts. Guards are given back by those who hold them, and slots of guards are not released
without them.
-/
def Watch.accounts : Watch Accounts where
  note
    | .answered (.hold _) (.ok guard), accounts => accounts.plus [guard]
    | .answered (.letGo guard) (.ok _), accounts => accounts.withoutGuard guard.slot
    | .answered (.retain value) (.ok slot), accounts => accounts.plusSlot slot value
    | .answered (.release slot) (.ok _), accounts => accounts.withoutSlot slot
    | _, accounts => accounts
  permits accounts point :=
    (∀ slot ∈ point.mark.givesBack, slot ∈ accounts.guards.map Guard.slot)
      ∧ ∀ slot ∈ point.mark.releases,
          slot ∉ (accounts.guards ++ point.machine.registered).map Guard.slot
  onward _ _ := True

instance (accounts : Accounts) (point : Point)
    : Decidable (Watch.accounts.permits accounts point) :=
  inferInstanceAs (Decidable
    ((∀ slot ∈ point.mark.givesBack, slot ∈ accounts.guards.map Guard.slot)
      ∧ ∀ slot ∈ point.mark.releases,
          slot ∉ (accounts.guards ++ point.machine.registered).map Guard.slot))

/-- The lives of a runtime, with what the host and natives have retained and not given back. -/
inductive Machine.Lived : Accounts → Machine → Prop
  | created (heap : Nat) (config : Config) : Lived {} (create heap config)
  | session {accounts m} (lived : Lived accounts m) (fuel : Nat) (session : HostProgram)
    (allows : Watch.accounts.Allows accounts (session.trace fuel m))
    : Lived (Watch.accounts.noted accounts (session.trace fuel m))
        ((Plan.program none 0 session).run (Vm.call fuel) m).last
  /-- The host turns to another execution context. -/
  | switched {accounts m} (lived : Lived accounts m) (context : ContextRef)
    : Lived accounts { m with context }
  /-- Another runtime changes the prototypes that runtimes share. -/
  | shared {accounts m} (lived : Lived accounts m) (prototypes : PrototypeStore)
    : Lived accounts { m with prototypes }
  | dropped {accounts m} (lived : Lived accounts m) : Lived accounts m.drop

/-- The table of retained values of a machine is accounted for. -/
structure Accounts.Exact (accounts : Accounts) (m : Machine) : Prop where
  /-- Every slot that is taken has one owner. -/
  owned : m.heap.retained.handles.Perm
    (accounts.direct.map Prod.fst ++ (accounts.guards ++ m.registered).map Guard.slot)
  size : m.heap.retained.size
    = 3 * m.hooks.functions.length + 3 * m.hooks.metamethods.length
      + m.connections.toList.countP (·.callback.isSome)
      + m.environments.shared.toList.length + m.environments.fallback.toList.length
      + m.environments.size + accounts.guards.length + accounts.direct.length
  guards : m.guards = accounts.guards.length + m.registered.length
  /-- A guard has kept its slot and what is in it, and gives back that slot and no other, once. -/
  kept {guard} : guard ∈ accounts.guards ++ m.registered
    → m.heap.retained.get guard.slot = .ok guard.value
      ∧ (∀ slot value, (m.letGo guard).heap.retained.get slot = .ok value
          ↔ slot ≠ guard.slot ∧ m.heap.retained.get slot = .ok value)
      ∧ (m.letGo guard).guards + 1 = m.guards
      ∧ (m.letGo guard).letGo guard = m.letGo guard
  direct {slot value} : (slot, value) ∈ accounts.direct → m.heap.retained.get slot = .ok value

-----------------------------------------------------------------------------------------
-- Exactness
-----------------------------------------------------------------------------------------

/-- A guard that has given back its slot gives back nothing more. -/
theorem Machine.letGo_twice (m : Machine) (guard : Guard)
    : (m.letGo guard).letGo guard = m.letGo guard := by
  have gone : ∃ miss, (m.letGo guard).heap.retained.get guard.slot = .error miss := by
    rcases found : (m.letGo guard).heap.retained.get guard.slot with miss | value
    · exact ⟨miss, rfl⟩
    · exact absurd rfl (Arena.get_remove.mp found).1
  obtain ⟨miss, missed⟩ := gone
  generalize m.letGo guard = after at *
  rw [Machine.letGo, Arena.remove_of_miss missed]
  rfl

namespace Accounts

variable {accounts : Accounts} {m : Machine}

theorem registered_length (m : Machine)
    : m.registered.length
      = 3 * m.hooks.functions.length + 3 * m.hooks.metamethods.length
        + m.connections.toList.countP (·.callback.isSome)
        + m.environments.shared.toList.length + m.environments.fallback.toList.length
        + m.environments.size := by
  simp only [Machine.registered, EnvironmentCache.guards, HookRegistry.guards,
    ConnectionRegistry.guards, EnvironmentCache.size, List.length_append, List.length_map,
    List.length_flatMap, FunctionHook.guards, MetamethodHook.guards, List.length_cons,
    List.length_nil, List.length_filterMap_eq_countP, List.map_const', List.sum_replicate_nat]
  omega

/-- Balanced accounts account for every slot. -/
theorem Balanced.exact (balanced : accounts.Balanced m) : accounts.Exact m where
  owned := by
    have slots := balanced.slots.map Prod.fst
    rw [List.map_append, List.map_map] at slots
    exact slots
  size := by
    have length := balanced.slots.length_eq
    rw [Arena.length_toList, List.length_append, List.length_map, List.length_append,
      registered_length] at length
    omega
  guards := by rw [balanced.out, List.length_append]
  kept {guard} member := by
    have found := balanced.get member
    have some := List.length_pos_of_mem member
    refine ⟨found, fun slot value => Arena.get_remove, ?_, m.letGo_twice guard⟩
    have out := balanced.out
    simp only [Machine.letGo, Arena.remove_of_get found, Option.isSome_some, if_true]
    omega
  direct member := Arena.mem_toList.mp
    (balanced.slots.mem_iff.mpr (List.mem_append_left _ member))

-----------------------------------------------------------------------------------------
-- Steps
-----------------------------------------------------------------------------------------

/-- The only entry of its kind in a list goes with the first of them. -/
theorem perm_cons_eraseP {α : Type} {entries : List α} {kind : α → Bool} {entry : α}
    (member : entry ∈ entries) (of : kind entry = true)
    (only : ∀ other ∈ entries, kind other = true → other = entry)
    : entries.Perm (entry :: entries.eraseP kind) := by
  obtain ⟨other, before, after, -, also, same, erased⟩ := List.exists_of_eraseP member of
  have listed : other ∈ entries := same ▸ List.mem_append_right _ (.head _)
  cases only other listed also
  rw [erased]
  exact (List.Perm.of_eq same).trans List.perm_middle

namespace Balanced

/-- A guard is the only one with its slot. -/
theorem single (balanced : accounts.Balanced m) {guard : Guard} (member : guard ∈ accounts.guards)
    : accounts.guards.Perm (guard :: (accounts.withoutGuard guard.slot).guards) := by
  refine perm_cons_eraseP member (beq_self_eq_true _) fun other also same => ?_
  have held := balanced.get (List.mem_append_left _ member)
  have other_held := balanced.get (List.mem_append_left _ also)
  obtain ⟨slot, value⟩ := guard
  obtain ⟨other_slot, other_value⟩ := other
  cases eq_of_beq same
  cases held.symm.trans other_held
  rfl

theorem letGoOwn (balanced : accounts.Balanced m) {guard : Guard}
    (own : guard.slot ∈ accounts.guards.map Guard.slot)
    : (accounts.withoutGuard guard.slot).Balanced (m.letGo guard) := by
  obtain ⟨held, member, same⟩ := List.mem_map.mp own
  have apart : ((accounts.withoutGuard held.slot).plus [held]).Balanced m :=
    balanced.perm (balanced.single member) rfl
  have left := apart.letGo
  unfold Machine.letGo at left ⊢
  rwa [same] at left

theorem retain (balanced : accounts.Balanced m) (value : Value)
    : (accounts.plusSlot (m.heap.retained.insert value).1 value).Balanced
        { m with heap.retained := (m.heap.retained.insert value).2 } where
  slots := (Arena.perm_insert m.heap.retained value).trans (balanced.slots.cons _)
  out := balanced.out
  functions := balanced.functions
  metamethods := balanced.metamethods

/-- What is released is a slot that no guard has. -/
theorem release (balanced : accounts.Balanced m) {slot : Handle}
    (free : slot ∉ (accounts.guards ++ m.registered).map Guard.slot)
    : (accounts.withoutSlot slot).Balanced
        { m with heap.retained := (m.heap.retained.remove slot).2 } := by
  refine ⟨?_, balanced.out, balanced.functions, balanced.metamethods⟩
  rcases found : m.heap.retained.get slot with miss | value
  · have absent (entry) (member : entry ∈ accounts.direct) : ¬(entry.1 == slot) = true := by
      intro same
      cases eq_of_beq same
      have held := balanced.exact.direct member
      rw [found] at held
      cases held
    rw [withoutSlot, List.eraseP_of_forall_not absent, Arena.remove_of_miss found]
    exact balanced.slots
  · have listed := balanced.slots.mem_iff.mp (Arena.mem_toList.mpr found)
    have member : (slot, value) ∈ accounts.direct := by
      rcases List.mem_append.mp listed with member | guarded
      · exact member
      · obtain ⟨guard, among, same⟩ := List.mem_map.mp guarded
        exact absurd (List.mem_map.mpr ⟨guard, among, congrArg Prod.fst same⟩) free
    have only (entry) (also : entry ∈ accounts.direct) (same : (entry.1 == slot) = true)
        : entry = (slot, value) := by
      cases eq_of_beq same
      have held := balanced.exact.direct also
      rw [found] at held
      cases held
      rfl
    have erased := perm_cons_eraseP member (beq_self_eq_true slot) only
    have removed := Arena.perm_remove found
    exact (removed.symm.trans (balanced.slots.trans (erased.append_right _))).cons_inv

theorem collect (balanced : accounts.Balanced m) : accounts.Balanced m.collect.2 := by
  unfold Machine.collect
  split
  · exact balanced
  · have retained := Heap.retained_collect m.heap m.surroundings [.table m.globals]
    exact balanced.trade retained rfl (.refl _) rfl balanced.functions balanced.metamethods

/-- What an answer that moves what is retained does to accounts. -/
theorem answered (balanced : accounts.Balanced m) {r : Request} {after : Machine}
    {o : Except Failure r.Answer} (invoke : Invoke) (moves : r.moves = true)
    (permits : Watch.accounts.permits accounts ⟨.asks r, m⟩)
    (ran : Course.answer invoke r m = .ok o after)
    : (Watch.accounts.note (.answered r o) accounts).Balanced after := by
  cases r with
  | collect =>
      rw [answer_collect] at ran
      cases ran
      exact balanced.collect
  | retain value =>
      rw [answer_retain] at ran
      split at ran
      · cases ran
        exact balanced.retain value
      · cases ran
        exact balanced
  | hold value =>
      rw [answer_hold] at ran
      split at ran
      · cases ran
        exact balanced.hold value
      · cases ran
        exact balanced
  | release slot =>
      cases ran
      exact balanced.release (permits.2 slot (.head _))
  | letGo guard =>
      cases ran
      exact balanced.letGoOwn (permits.1 guard.slot (.head _))
  | _ => simp [Request.moves] at moves

end Balanced

/-- Two runs of a machine with balanced accounts keep them balanced over every operation. -/
theorem regular : (Likeness.twins Pace.same Balanced).Regular := by
  have whole : Tie.identity.Whole := Tie.identity_whole
  have loose : (Likeness.twins Pace.same fun (_ : Accounts) _ => True).Regular :=
    (Likeness.twins_seamless fun _ => id).regular
  have kept {ε α : Type} {accounts : Accounts} {x : Run ε α} {related : α → α → Prop}
      (agree : (Likeness.twins Pace.same fun (_ : Accounts) _ => True).Agree accounts x x related)
      (keeps : ∀ {m}, accounts.Balanced m → accounts.Keeps x m)
      : (Likeness.twins Pace.same Balanced).Agree accounts x x related :=
    Likeness.twins_keeps agree fun _ balanced => (keeps balanced).last
  constructor
  case toLawful => exact Likeness.twins_lawful fun change balanced => balanced.aside change
  case find =>
    intro _ o o' owner
    cases (congrFun₂ whole.owners_eq o o').mp owner
    exact kept (loose.find owner) (find_keeps · o)
  case install =>
    intro _ v w x y target replacement
    cases whole.values.mp target
    cases whole.values.mp replacement
    exact kept (loose.install target replacement) (install_keeps · v x)
  case restore =>
    intro _ v w target
    cases whole.values.mp target
    exact kept (loose.restore target) (restore_keeps · v)
  case installMetamethod =>
    intro _ v w x y name object replacement
    cases whole.values.mp object
    cases whole.values.mp replacement
    exact kept (loose.installMetamethod name object replacement)
      (installMetamethod_keeps · v name x)
  case restoreMetamethod =>
    intro _ v w name object
    cases whole.values.mp object
    exact kept (loose.restoreMetamethod name object) (restoreMetamethod_keeps · v name)
  case register =>
    intro _ v w signal callback
    cases whole.values.mp callback
    exact kept (loose.register signal callback) (register_keeps · signal v)
  case disconnect =>
    intro _ index
    exact kept (loose.disconnect index) (disconnect_keeps · index)

/-- Accounts stay balanced over whatever a runtime does. -/
theorem conducted : (Likeness.twins Pace.same Balanced).Conducted Watch.accounts := by
  have aside {accounts : Accounts} {m after : Machine} (balanced : accounts.Balanced m)
      (heap : after.heap = m.heap) (guards : after.guards = m.guards)
      (registered : after.registered = m.registered) (hooks : after.hooks = m.hooks)
      : accounts.Balanced after :=
    balanced.trade (by rw [heap]) guards (.of_eq (by rw [registered])) rfl
      (hooks ▸ balanced.functions) (hooks ▸ balanced.metamethods)
  refine Likeness.twins_conducted regular (fun _ balanced => aside balanced rfl rfl rfl rfl)
    (fun _ => trivial) (fun _ _ => trivial) ?_ (fun _ => id)
    (fun balanced => aside balanced rfl rfl rfl rfl)
    (fun _ _ _ balanced => ⟨aside balanced rfl rfl rfl rfl, trivial⟩)
    (fun invoke moves permits balanced ran =>
      ⟨balanced.answered invoke moves permits ran, trivial⟩)
  intro accounts mark still
  match mark with
  | .called _ | .executes .. | .failed _ | .asks _ => rfl
  | .entered | .left => rfl
  | .answered r o => cases r <;> first | rfl | simp [Mark.moves, Request.moves] at still

-----------------------------------------------------------------------------------------
-- Lives
-----------------------------------------------------------------------------------------

theorem registerAll_keeps (functions : List ScriptFunction) (balanced : accounts.Balanced m)
    : accounts.Keeps (Script.register functions) m := by
  induction functions generalizing m with
  | nil => exact .pure balanced trivial
  | cons f rest ih =>
      have made := aside_keeps balanced fun lawful _ =>
        ⟨_, Likeness.newNative_agree lawful
          (n := { name := f.name, body := .script f }) ⟨rfl, .script f, .nil, rfl⟩⟩
      refine made.bind fun native m₁ balanced _ => .get ?_
      have wrote := aside_keeps balanced fun lawful whole =>
        ⟨_, Likeness.rawSet_agree lawful (whole.object (.table m₁.globals)) (.string f.name)
          (whole.value (.native native))⟩
      exact wrote.bind fun _ m₂ balanced _ => ih balanced

namespace Balanced

/-- A runtime is created with nothing retained. -/
theorem create (heap : Nat) (config : Config)
    : ({} : Accounts).Balanced (Machine.create heap config) := by
  have bare : ({} : Accounts).Balanced (.bare heap config) := ⟨.refl _, rfl, .nil, .nil⟩
  have registered := (registerAll_keeps ScriptFunction.all bare).last
  unfold Machine.create
  generalize Script.register ScriptFunction.all (.bare heap config) = outcome at *
  cases outcome <;> exact registered

/-- A runtime that is dropped gives back what its registries have retained. -/
theorem drop (balanced : accounts.Balanced m) : accounts.Balanced m.drop := by
  have detached : (accounts.plus m.registered).Balanced m.detached := by
    have empty : m.detached.registered = [] := rfl
    refine balanced.trade rfl rfl ?_ rfl .nil .nil
    rw [empty, List.append_nil]
    exact List.perm_append_comm
  have dropped : m.drop = m.detached.letGoAll m.registered := m.detached_letGoAll m.registered
  exact dropped ▸ detached.letGoAll m.registered

/-- Accounts are balanced at every point of a session and after it. -/
theorem session (balanced : accounts.Balanced m) (fuel : Nat) (session : HostProgram)
    (allows : Watch.accounts.Allows accounts (session.trace fuel m))
    : (∀ before point rest, session.trace fuel m = before ++ point :: rest
        → (Watch.accounts.noted accounts (before ++ [point])).Balanced point.machine)
      ∧ (Watch.accounts.noted accounts (session.trace fuel m)).Balanced
          ((Plan.program none 0 session).run (Vm.call fuel) m).last := by
  have start : (Likeness.twins Pace.same Balanced).machines accounts m m :=
    ⟨m.config.limits, m.steps, rfl, ⟨rfl, rfl⟩, balanced⟩
  have watched := Likeness.session_watched conducted rfl fuel
    (Tie.identity_whole.programs_refl rfl session) start
  obtain ⟨shown, -, follows⟩ := watched.kept allows
  refine ⟨fun before point rest same => ?_, ?_⟩
  · rw [same] at shown
    obtain ⟨_, _, _, _, -, balanced⟩ := shown.point
    exact balanced
  · generalize (Plan.program none 0 session).run (Vm.call fuel) m = outcome at *
    cases follows with
    | escapes escapes => exact escapes.elim
    | alike outcomes =>
        cases outcomes with
        | ok alike | error _ alike =>
            obtain ⟨_, _, _, -, balanced⟩ := alike
            exact balanced

end Balanced
end Accounts

/-- Accounts are balanced throughout the life of a runtime, by induction over it. -/
theorem Machine.Lived.balanced {accounts : Accounts} {m : Machine} (lived : m.Lived accounts)
    : accounts.Balanced m := by
  induction lived with
  | created heap config => exact .create heap config
  | session _ fuel session allows ih => exact (ih.session fuel session allows).2
  | switched _ _ ih => exact ih.trade rfl rfl (.refl _) rfl ih.functions ih.metamethods
  | shared _ _ ih => exact ih.trade rfl rfl (.refl _) rfl ih.functions ih.metamethods
  | dropped _ ih => exact ih.drop

/-- Throughout the life of a runtime, at every point of every session and between them, the slots
that are taken are those of its registries and those that are in accounts, one for each.
-/
theorem Machine.Lived.accounts_exact {accounts : Accounts} {m : Machine}
    (lived : m.Lived accounts) (fuel : Nat) (session : HostProgram)
    (allows : Watch.accounts.Allows accounts (session.trace fuel m))
    : accounts.Exact m
      ∧ ∀ before point rest, session.trace fuel m = before ++ point :: rest
        → (Watch.accounts.noted accounts (before ++ [point])).Exact point.machine :=
  ⟨lived.balanced.exact, fun before point rest same =>
    ((lived.balanced.session fuel session allows).1 before point rest same).exact⟩

/-- A connection and an environment are made, and all that was retained besides is given back. -/
theorem Machine.Lived.accounts_exact_returned
    : ∃ (m : Machine) (session : HostProgram), m.Lived {}
        ∧ Watch.accounts.Allows {} (session.trace 1 m) ∧ (session.trace 1 m).length = 14
        ∧ ∀ before point rest, session.trace 1 m = before ++ point :: rest
          → (Watch.accounts.noted {} (before ++ [point])).Exact point.machine := by
  let callback : Value := .native ⟨⟨1, 0, 0⟩⟩
  let session : HostProgram :=
    .ask (.hold callback) fun
      | .error _ => .finish []
      | .ok guard =>
          .ask (.retain callback) fun
            | .error _ => .finish []
            | .ok slot =>
                .ask (.connect "signal" callback) fun _ =>
                .ask (.letGo guard) fun _ =>
                .ask (.environment .runtime) fun _ =>
                .ask (.release slot) fun _ =>
                .ask (.disconnect 0) fun _ => .finish []
  let m : Machine := .create 1 {}
  have lived : m.Lived {} := .created 1 {}
  have allows : Watch.accounts.Allows {} (session.trace 1 m) := by decide +kernel
  have length : (session.trace 1 m).length = 14 := by decide +kernel
  exact ⟨m, session, lived, allows, length, (lived.accounts_exact 1 session allows).2⟩

end HookMachine
