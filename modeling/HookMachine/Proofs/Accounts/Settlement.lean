import HookMachine.Proofs.Accounts.Balance
import HookMachine.Proofs.Likeness.Twins

/-!
What operations on registries do to accounts: a judgement with a rule for each way to put operations
together. An operation may hold guards of its own while it works; in the end they are in a registry
or given back, also if it fails half way.
-/

namespace HookMachine

namespace Accounts

variable {ε ε' α β : Type}

/-- What an operation does to accounts: they are `left` with a result that is `good`, and `lost` if
it stops.
-/
def Settles (x : Run ε α) (m : Machine) (left : α → Accounts) (lost : Accounts)
    (good : α → Machine → Prop)
    : Prop :=
  match x m with
  | .ok a after => (left a).Balanced after ∧ good a after
  | .error _ after => lost.Balanced after

/-- An operation that keeps accounts balanced in any case. -/
abbrev Keeps (accounts : Accounts) (x : Run ε α) (m : Machine)
    (good : α → Machine → Prop := fun _ _ => True)
    : Prop :=
  Settles x m (fun _ => accounts) accounts good

-----------------------------------------------------------------------------------------
-- Rules
-----------------------------------------------------------------------------------------

namespace Settles

variable {accounts lost : Accounts} {left : α → Accounts} {good : α → Machine → Prop} {m : Machine}
  {x : Run ε α}

theorem last (settles : accounts.Keeps x m good) : accounts.Balanced (x m).last := by
  unfold Keeps Settles at settles
  generalize x m = outcome at *
  cases outcome with
  | ok a after => exact settles.1
  | error halt after => exact settles

theorem pure {a : α} (balanced : (left a).Balanced m) (holds : good a m)
    : Settles (pure a : Run ε α) m left lost good :=
  ⟨balanced, holds⟩

theorem fail (error : ε) (balanced : lost.Balanced m)
    : Settles (throw (.failed error) : Run ε α) m left lost good :=
  balanced

/-- A failure keeps what would follow it from being done. -/
theorem failThen {f : α → Run ε β} {left : β → Accounts} {good : β → Machine → Prop} (error : ε)
    (balanced : lost.Balanced m)
    : Settles ((throw (.failed error) : Run ε α) >>= f) m left lost good :=
  balanced

theorem get {f : Machine → Run ε α} (rest : Settles (f m) m left lost good)
    : Settles (get >>= f) m left lost good :=
  rest

/-- A change that is part of an operation. -/
theorem modify {change : Machine → Machine} {f : Unit → Run ε α}
    (rest : Settles (f ()) (change m) left lost good)
    : Settles (modify change >>= f) m left lost good :=
  rest

theorem bind {f : α → Run ε β} {mid : α → Accounts} {left : β → Accounts}
    {last : β → Machine → Prop} (first : Settles x m mid lost good)
    (rest : ∀ a after, (mid a).Balanced after → good a after
      → Settles (f a) after left lost last)
    : Settles (x >>= f) m left lost last := by
  change Settles (EStateM.bind x f) m left lost last
  unfold Settles EStateM.bind at *
  generalize x m = outcome at *
  cases outcome with
  | ok a after => exact rest a after first.1 first.2
  | error halt after => exact first

theorem mono {better : α → Machine → Prop} (settles : Settles x m left lost good)
    (implies : ∀ a after, good a after → better a after)
    : Settles x m left lost better := by
  unfold Settles at *
  generalize x m = outcome at *
  cases outcome with
  | ok a after => exact ⟨settles.1, implies a after settles.2⟩
  | error halt after => exact settles

theorem mapError (f : ε → ε') (settles : Settles x m left lost good)
    : Settles (Run.mapError f x) m left lost good := by
  unfold Settles Run.mapError at *
  generalize x m = outcome at *
  rcases outcome with ⟨a, after⟩ | ⟨_ | _, after⟩ <;> exact settles

/-- Running code as part of an operation of the host. -/
theorem lift {x : Vm α} (settles : Settles x m left lost good)
    : Settles (liftM x : Action α) m left lost good :=
  settles.mapError _

/-- What an operation leaves when it stops is given back. -/
theorem onHalt {undo : Machine → Machine} {fewer : Accounts} (settles : Settles x m left lost good)
    (undone : ∀ {after}, lost.Balanced after → fewer.Balanced (undo after))
    : Settles (Run.onHalt x undo) m left fewer good := by
  unfold Settles Run.onHalt at *
  generalize x m = outcome at *
  cases outcome with
  | ok a after => exact settles
  | error halt after => exact undone settles

end Settles

-----------------------------------------------------------------------------------------
-- Single steps
-----------------------------------------------------------------------------------------

variable {accounts : Accounts} {m : Machine}

theorem Balanced.aside {after : Machine} (balanced : accounts.Balanced m) (aside : m.Aside after)
    : accounts.Balanced after := by
  refine balanced.trade aside.retained aside.guards (.of_eq ?_) rfl
    (aside.hooks ▸ balanced.functions) (aside.hooks ▸ balanced.metamethods)
  rw [Machine.registered, aside.environments, aside.hooks, aside.connected]
  rfl

/-- Operations that leave aside what registries keep. -/
theorem aside_keeps (balanced : accounts.Balanced m) {x : Run ε α}
    (agree : ∀ {L : Likeness Unit}, L.Lawful → L.tie.Whole → ∃ related, L.Agree () x x related)
    : accounts.Keeps x m fun _ after => m.Aside after := by
  have aside := Likeness.aside_of_agree agree m
  unfold Keeps Settles
  generalize x m = outcome at *
  cases outcome with
  | ok a after => exact ⟨balanced.aside aside, aside⟩
  | error halt after => exact balanced.aside aside

theorem hold_settles (balanced : accounts.Balanced m) (value : Value)
    : Settles (Vm.hold value) m (fun guard => accounts.plus [guard]) accounts
        fun _ after => after.environments = m.environments ∧ after.hooks = m.hooks := by
  unfold Settles
  rcases owned : m.heap.owns value with _ | _
  · rw [Vm.hold_of_foreign owned]
    exact balanced
  · rw [Vm.hold_of_owns owned]
    exact ⟨balanced.hold value, rfl, rfl⟩

-----------------------------------------------------------------------------------------
-- Environments
-----------------------------------------------------------------------------------------

end Accounts

namespace EnvironmentCache

variable (cache : EnvironmentCache)

theorem perm_fallback (none : cache.fallback = none) (guard : Guard)
    : ({ cache with fallback := some guard } : EnvironmentCache).guards.Perm
        (guard :: cache.guards) := by
  simp [guards, none]

theorem perm_insert {owner : EnvironmentOwner} (unknown : cache.find? owner = none)
    (guard : Guard)
    : (cache.insert guard owner).guards.Perm (guard :: cache.guards) := by
  cases owner with
  | runtime =>
      have none : cache.shared = none := unknown
      simp only [guards, insert, none, Option.toList_some, Option.toList_none, List.append_nil,
        List.append_assoc, List.singleton_append]
      exact List.perm_middle
  | script id =>
      have others
          : (cache.fallback.toList ++ cache.shared.toList ++ cache.scripts.map (·.2)
              ++ guard :: cache.modules.map (·.2)).Perm
            (guard :: (cache.fallback.toList ++ cache.shared.toList ++ cache.scripts.map (·.2)
              ++ cache.modules.map (·.2))) :=
        List.perm_middle
      simpa only [guards, insert, List.map_append, List.map_cons, List.map_nil,
        List.append_assoc, List.cons_append, List.nil_append] using others
  | module id =>
      simp only [guards, insert, List.map_append, List.map_cons, List.map_nil]
      rw [← List.append_assoc]
      exact List.perm_append_singleton ..

end EnvironmentCache

namespace Accounts

variable {accounts : Accounts} {m : Machine}

open Likeness Likeness.Seamless

theorem tableOf_keeps (balanced : accounts.Balanced m) (guard : Guard)
    : accounts.Keeps (Environment.tableOf guard) m fun _ after => m.Aside after :=
  aside_keeps balanced fun _ whole =>
    ⟨_, tableOf_agree ((congrFun₂ whole.guards_eq guard guard).mpr rfl)⟩

theorem fallback_keeps (balanced : accounts.Balanced m)
    : accounts.Keeps Environment.fallback m fun _ after =>
        ∃ fallback, after.environments = { m.environments with fallback } := by
  refine .get ?_
  split
  · rename_i guard known
    exact (tableOf_keeps balanced guard).mono fun _ _ aside => ⟨_, aside.environments⟩
  · rename_i unknown
    have made := aside_keeps balanced fun lawful _ => ⟨_, (newTable_agree lawful).lift⟩
    refine made.bind fun ref m₁ balanced aside => ?_
    refine (hold_settles balanced (.table ref)).lift.bind fun guard m₂ balanced kept => .get ?_
    have shut := aside_keeps balanced fun lawful whole =>
      ⟨_, (rawSet_agree lawful (whole.object (.table ref)) (.string "__index")
        (whole.value (.table m₂.globals))).lift.andThen fun _ _ =>
          (setReadOnly_agree lawful (whole.object (.table ref)) true).lift⟩
    refine (shut.onHalt fun balanced => balanced.letGo).bind fun _ m₃ balanced closed => ?_
    have same : m₃.environments = m.environments :=
      closed.environments.trans (kept.1.trans aside.environments)
    refine .modify (.pure (balanced.changeEnvironments _ ?_) ⟨some guard, ?_⟩)
    · exact EnvironmentCache.perm_fallback _ (same ▸ unknown) guard
    · exact same ▸ rfl

/-- A new environment is held by a guard. -/
theorem create_settles (balanced : accounts.Balanced m)
    : Settles Environment.create m (fun guard => accounts.plus [guard]) accounts fun _ after =>
        ∃ fallback, after.environments = { m.environments with fallback } := by
  refine (fallback_keeps balanced).bind fun metatable m₁ balanced ⟨fallback, same⟩ => ?_
  have made := aside_keeps balanced fun lawful _ => ⟨_, (newTable_agree lawful).lift⟩
  refine made.bind fun ref m₂ balanced aside => ?_
  refine (hold_settles balanced (.table ref)).lift.bind fun guard m₃ balanced kept => ?_
  have attached := aside_keeps balanced fun lawful whole =>
    ⟨_, (setMetatable_agree lawful (whole.object (.table ref))
      (.some (whole.object (.table metatable)))).lift⟩
  refine (attached.onHalt fun balanced => balanced.letGo).bind fun _ m₄ balanced closed => ?_
  refine .pure balanced ⟨fallback, ?_⟩
  exact closed.environments.trans (kept.1.trans (aside.environments.trans same))

theorem recorded_keeps (balanced : accounts.Balanced m) (owner : EnvironmentOwner)
    : accounts.Keeps (Environment.recorded owner) m := by
  refine .get ?_
  split
  · exact (tableOf_keeps balanced _).mono fun _ _ _ => trivial
  · rename_i unknown
    refine (create_settles balanced).bind fun guard m₁ balanced ⟨fallback, same⟩ => ?_
    have unknown : m₁.environments.find? owner = none := by
      rw [same]
      cases owner <;> exact unknown
    have recorded :=
      balanced.changeEnvironments _ (EnvironmentCache.perm_insert _ unknown guard)
    exact .modify ((tableOf_keeps recorded guard).mono fun _ _ _ => trivial)

theorem find_keeps (balanced : accounts.Balanced m) (owner : EnvironmentOwner)
    : accounts.Keeps (Environment.find owner) m := by
  cases owner with
  | runtime => exact recorded_keeps balanced .runtime
  | script id | module id =>
      have checked := aside_keeps balanced fun lawful whole =>
        ⟨_, (checkOwner_agree lawful (whole.value id)).lift⟩
      exact checked.bind fun _ _ balanced _ => recorded_keeps balanced _

-----------------------------------------------------------------------------------------
-- Hooks
-----------------------------------------------------------------------------------------

theorem install_keeps (balanced : accounts.Balanced m) (target replacement : Value)
    : accounts.Keeps (Hook.install target replacement) m := by
  cases target with
  | native ref => exact .pure balanced trivial
  | nil | boolean | number | string | table => exact .fail _ balanced
  | closure ref =>
      have checked := aside_keeps balanced fun _ whole =>
        ⟨_, checkCallable_agree (whole.value replacement) "hook replacement"⟩
      refine checked.bind fun _ m₁ balanced _ => ?_
      split
      · exact .failThen _ balanced
      · have cloned := aside_keeps balanced fun lawful whole =>
          ⟨_, (clone_agree lawful (whole.value (.closure ref))).lift⟩
        refine cloned.bind fun copy m₂ balanced _ => ?_
        split
        · rename_i copy
          refine (hold_settles balanced _).lift.bind fun target m₃ balanced _ => ?_
          refine ((hold_settles balanced _).lift.onHalt fun balanced => balanced.letGo).bind
            fun former m₄ balanced _ => ?_
          refine ((hold_settles balanced _).lift.onHalt fun balanced =>
            balanced.letGoAll [former, target]).bind fun guard m₅ balanced _ => ?_
          let hook : FunctionHook := { target, former, replacement := guard }
          have held : (accounts.plus hook.guards).Balanced m₅ :=
            balanced.perm ((List.reverse_perm [target, former, guard]).append_right _) rfl
          have redirected := aside_keeps held fun lawful whole =>
            ⟨_, (setRedirect_agree lawful (whole.object (.closure ref))
              (.some (whole.value replacement))).lift⟩
          refine (redirected.onHalt fun balanced => balanced.letGoAll hook.guards).bind
            fun _ m₆ balanced _ => .get (.modify ?_)
          have inserted := balanced.insertFunction ref hook
          generalize m₆.hooks.function? ref = former at *
          cases former with
          | none => exact .pure inserted trivial
          | some former =>
              exact .modify (.pure (inserted.letGoAll former.guards) trivial)
        · exact .fail _ balanced

theorem restore_keeps (balanced : accounts.Balanced m) (target : Value)
    : accounts.Keeps (Hook.restore target) m := by
  cases target with
  | nil | boolean | number | string | table | native => exact .pure balanced trivial
  | closure ref =>
      refine .get ?_
      split
      · exact .pure balanced trivial
      · rename_i hook known
        have erased := balanced.eraseFunction ref
        rw [known] at erased
        have held : (accounts.plus hook.guards).Balanced _ := erased
        refine .modify ?_
        have redirected := aside_keeps held fun lawful whole =>
          ⟨_, (setRedirect_agree lawful (whole.object (.closure ref)) .none).lift⟩
        refine (redirected.onHalt fun balanced => balanced.letGoAll hook.guards).bind
          fun _ m₁ balanced _ => ?_
        exact .modify (.pure (balanced.letGoAll hook.guards) trivial)

theorem takePrevious_settles (balanced : accounts.Balanced m) (slot : MetamethodSlot)
    (existing : Value)
    : Settles (Hook.takePrevious slot existing) m (fun guard => accounts.plus [guard]) accounts
        fun _ after => after.hooks.metamethod? slot = none := by
  refine .get ?_
  split
  · rename_i hook known
    have erased := balanced.eraseMetamethod slot
    rw [known] at erased
    have held : ((accounts.plus [hook.previous]).plus [hook.former, hook.replacement]).Balanced _ :=
      erased.perm (@List.perm_middle _ _ [hook.former, hook.replacement] _).symm rfl
    refine .modify (.modify (.pure (held.letGoAll _) ?_))
    exact (HookRegistry.metamethod?_eraseMetamethod m.hooks slot slot).trans (if_pos rfl)
  · rename_i unhooked
    exact (hold_settles balanced existing).lift.mono fun _ _ kept => kept.2 ▸ unhooked

theorem installMetamethod_keeps (balanced : accounts.Balanced m) (object : Value) (name : String)
    (replacement : Value)
    : accounts.Keeps (Hook.installMetamethod object name replacement) m := by
  have checked := aside_keeps balanced fun _ whole =>
    ⟨_, checkCallable_agree (whole.value replacement) "metamethod replacement"⟩
  refine checked.bind fun _ m₁ balanced _ => ?_
  have found := aside_keeps balanced fun lawful whole =>
    ⟨_, (metatable_agree lawful (whole.value object)).lift⟩
  refine found.bind fun metatable m₂ balanced _ => ?_
  split
  · exact .fail _ balanced
  · rename_i metatable
    have read := aside_keeps balanced fun lawful whole =>
      ⟨_, (rawGet_agree lawful (whole.object (.table metatable)) (.string name)).lift⟩
    refine read.bind fun existing m₃ balanced _ => ?_
    split
    · exact .failThen _ balanced
    · have cloned := aside_keeps balanced fun lawful whole =>
        ⟨_, (clone_agree lawful (whole.value existing)).lift⟩
      refine cloned.bind fun copy m₄ balanced _ => ?_
      refine (takePrevious_settles balanced (metatable, name) existing).bind
        fun previous m₅ balanced unhooked => ?_
      refine ((hold_settles balanced _).lift.onHalt fun balanced => balanced.letGo).bind
        fun former m₆ balanced kept => ?_
      replace unhooked := kept.2 ▸ unhooked
      refine ((hold_settles balanced _).lift.onHalt fun balanced =>
        balanced.letGoAll [former, previous]).bind fun guard m₇ balanced kept => ?_
      replace unhooked := kept.2 ▸ unhooked
      let hook : MetamethodHook := { previous, former, replacement := guard }
      have held : (accounts.plus hook.guards).Balanced m₇ :=
        balanced.perm ((List.reverse_perm [previous, former, guard]).append_right _) rfl
      have written := aside_keeps held fun lawful whole =>
        ⟨_, (writeUnprotected_agree lawful (whole.object (.table metatable)) name
          (whole.value replacement)).lift⟩
      refine (written.onHalt fun balanced => balanced.letGoAll hook.guards).bind
        fun _ m₈ balanced aside => ?_
      refine .modify (.pure (balanced.insertMetamethod _ hook ?_) trivial)
      exact aside.hooks ▸ unhooked

theorem restoreMetamethod_keeps (balanced : accounts.Balanced m) (object : Value) (name : String)
    : accounts.Keeps (Hook.restoreMetamethod object name) m := by
  have found := aside_keeps balanced fun lawful whole =>
    ⟨_, (metatable_agree lawful (whole.value object)).lift⟩
  refine found.bind fun metatable m₁ balanced _ => ?_
  split
  · exact .pure balanced trivial
  · rename_i metatable
    refine .get ?_
    split
    · exact .pure balanced trivial
    · rename_i hook known
      have erased := balanced.eraseMetamethod (metatable, name)
      rw [known] at erased
      have held : (accounts.plus hook.guards).Balanced _ := erased
      refine .modify ?_
      have written := aside_keeps held fun lawful whole =>
        ⟨_, (writeUnprotected_agree lawful (whole.object (.table metatable)) name
          (whole.value hook.previous.value)).lift⟩
      refine (written.onHalt fun balanced => balanced.letGoAll hook.guards).bind
        fun _ m₂ balanced _ => ?_
      exact .modify (.pure (balanced.letGoAll hook.guards) trivial)

-----------------------------------------------------------------------------------------
-- Connections
-----------------------------------------------------------------------------------------

theorem register_keeps (balanced : accounts.Balanced m) (signal : String) (callback : Value)
    : accounts.Keeps (Connection.register signal callback) m := by
  unfold Connection.register
  split
  · refine (hold_settles balanced callback).lift.bind fun guard m₁ balanced _ => ?_
    have pushed := ConnectionRegistry.guards_push m₁.connections { signal, callback := some guard }
    have connected : (accounts.plus []).Balanced _ := balanced.changeConnections _ pushed
    exact ⟨connected, trivial⟩
  · exact .failThen _ balanced

theorem disconnect_keeps (balanced : accounts.Balanced m) (index : Nat)
    : accounts.Keeps (Connection.disconnect index) m := by
  have without : (accounts.plus []).Balanced m := balanced
  have ended := without.changeConnections _ (m.connections.guards_disconnect index)
  unfold Keeps Settles
  dsimp only [Connection.disconnect, modifyGet, MonadStateOf.modifyGet, EStateM.modifyGet]
  generalize (m.connections[index]? >>= (·.callback)) = callback at *
  cases callback with
  | none => exact ⟨ended, trivial⟩
  | some guard => exact ⟨ended.letGo, trivial⟩

end Accounts
end HookMachine
