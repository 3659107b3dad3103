import HookMachine.Connection.Firing
import HookMachine.Environment.Lookup
import HookMachine.Hook.Interception
import HookMachine.Proofs.Likeness.Primitives
import HookMachine.Proofs.Likeness.Registries

/-!
Environments, hooks and connections by the judgement of agreement. They retain values while they
work; where machines stay alike at every write, the operations agree.
-/

namespace HookMachine

namespace Likeness

variable {ι : Type} (L : Likeness ι)

/-- A likeness of machines that each operation on registries keeps as a whole. -/
structure Regular : Prop extends L.Lawful where
  find {i o o'} : L.tie.Owners o o'
    → L.Agree i (Environment.find o) (Environment.find o') L.tie.TableRefs
  install {i v w x y} : L.tie.Values v w → L.tie.Values x y
    → L.Agree i (Hook.install v x) (Hook.install w y) (Option.Rel L.tie.ClosureRefs)
  restore {i v w} : L.tie.Values v w → L.Agree i (Hook.restore v) (Hook.restore w) Eq
  installMetamethod {i v w x y} (name : String) : L.tie.Values v w → L.tie.Values x y
    → L.Agree i (Hook.installMetamethod v name x) (Hook.installMetamethod w name y) L.tie.Values
  restoreMetamethod {i v w} (name : String) : L.tie.Values v w
    → L.Agree i (Hook.restoreMetamethod v name) (Hook.restoreMetamethod w name) Eq
  register {i v w} (signal : String) : L.tie.Values v w
    → L.Agree i (Connection.register signal v) (Connection.register signal w) Eq
  disconnect {i} (index : Nat)
    : L.Agree i (Connection.disconnect index) (Connection.disconnect index) Eq

/-- A likeness of machines that is kept by every single write of registries and of what they
retain.
-/
structure Seamless : Prop extends L.Lawful where
  hold {i m n v w} : L.machines i m n → L.tie.Values v w
    → L.machines i (m.hold v).2 (n.hold w).2 ∧ L.tie.Guards (m.hold v).1 (n.hold w).1
  letGo {i m n g h} : L.machines i m n → L.tie.Guards g h → L.machines i (m.letGo g) (n.letGo h)
  setEnvironments {i m n c d} : L.machines i m n → L.tie.Environments c d
    → L.machines i { m with environments := c } { n with environments := d }
  setHooks {i m n r s} : L.machines i m n → L.tie.Hooks r s
    → L.machines i { m with hooks := r } { n with hooks := s }
  setConnections {i m n r s} : L.machines i m n → L.tie.Connections r s
    → L.machines i { m with connections := r } { n with connections := s }

variable {L} {i : ι} {v w x y : Value}

namespace Seamless

variable (seamless : L.Seamless)

include seamless

-----------------------------------------------------------------------------------------
-- Guards
-----------------------------------------------------------------------------------------

/-- Giving up like guards one after the other keeps machines alike. -/
theorem letGoAll {m n : Machine} (alike : L.machines i m n) {gs hs : List Guard}
    (guards : gs.Forall₂ L.tie.Guards hs)
    : L.machines i (m.letGoAll gs) (n.letGoAll hs) := by
  unfold Machine.letGoAll
  induction guards generalizing m n with
  | nil => exact alike
  | cons guard _ ih => exact ih (seamless.letGo alike guard)

theorem hold_agree (value : L.tie.Values v w) : L.Agree i (Vm.hold v) (Vm.hold w) L.tie.Guards :=
  (checkOwner_agree seamless.toLawful value).andThen fun _ _ =>
    .modifyGet fun alike => seamless.hold alike value

/-- A guard is taken while others are held, which are given up if that fails. -/
theorem holdAmong_agree (value : L.tie.Values v w) {gs hs : List Guard}
    (guards : gs.Forall₂ L.tie.Guards hs)
    : L.Agree i (Run.onHalt (Vm.hold v) (·.letGoAll gs) : Action Guard)
        (Run.onHalt (Vm.hold w) (·.letGoAll hs)) L.tie.Guards :=
  .onHalt (seamless.hold_agree value).lift fun alike => seamless.letGoAll alike guards

theorem giveUp_agree {gs hs : List Guard} (guards : gs.Forall₂ L.tie.Guards hs)
    : L.Agree i (modify (·.letGoAll gs) : Action Unit) (modify (·.letGoAll hs)) Eq :=
  .modify fun alike => seamless.letGoAll alike guards

-----------------------------------------------------------------------------------------
-- Environments
-----------------------------------------------------------------------------------------

omit seamless in
theorem tableOf_agree {g h : Guard} (guard : L.tie.Guards g h)
    : L.Agree i (Environment.tableOf g) (Environment.tableOf h) L.tie.TableRefs := by
  have value := guard.value
  unfold Environment.tableOf
  generalize g.value = v at *
  generalize h.value = w at *
  cases value with
  | table tied => exact .pure tied
  | nil | boolean | number | string | closure | native => exact refuse_agree _

theorem fallback_agree
    : L.Agree i Environment.fallback Environment.fallback L.tie.TableRefs := by
  refine .bind .get fun m n alike => ?_
  have known := (seamless.reads alike).environments.fallback
  generalize m.environments.fallback = o at *
  generalize n.environments.fallback = p at *
  cases known with
  | some guard => exact tableOf_agree guard
  | none =>
      refine (newTable_agree seamless.toLawful).lift.bind fun a b tied => ?_
      refine (seamless.hold_agree (.table tied)).lift.bind fun g h guard => ?_
      refine .bind .get fun m n alike => ?_
      have globals := Value.Paired.table (seamless.reads alike).globals
      have shut := (rawSet_agree (i := i) seamless.toLawful tied (.string "__index") globals).lift.andThen
        fun _ _ => (setReadOnly_agree seamless.toLawful tied true).lift
      refine (shut.onHalt fun alike => seamless.letGo alike guard).andThen fun _ _ => ?_
      refine .andThen (.modify fun alike => ?_) fun _ _ => .pure tied
      exact seamless.setEnvironments alike
        { (seamless.reads alike).environments with fallback := .some guard }

theorem create_agree : L.Agree i Environment.create Environment.create L.tie.Guards := by
  refine seamless.fallback_agree.bind fun c d metatable => ?_
  refine (newTable_agree seamless.toLawful).lift.bind fun a b tied => ?_
  refine (seamless.hold_agree (.table tied)).lift.bind fun g h guard => ?_
  have attached := (setMetatable_agree (i := i) seamless.toLawful tied (.some metatable)).lift
  exact (attached.onHalt fun alike => seamless.letGo alike guard).andThen fun _ _ => .pure guard

theorem recorded_agree {o o' : EnvironmentOwner} (owner : L.tie.Owners o o')
    : L.Agree i (Environment.recorded o) (Environment.recorded o') L.tie.TableRefs := by
  refine .bind .get fun m n alike => ?_
  have known := (seamless.reads alike).environments.find? owner
  generalize m.environments.find? o = p at *
  generalize n.environments.find? o' = q at *
  cases known with
  | some guard => exact tableOf_agree guard
  | none =>
      refine seamless.create_agree.bind fun g h guard => ?_
      refine .andThen (.modify fun alike => ?_) fun _ _ => tableOf_agree guard
      exact seamless.setEnvironments alike
        ((seamless.reads alike).environments.insert owner guard)

theorem find_agree {o o' : EnvironmentOwner} (owner : L.tie.Owners o o')
    : L.Agree i (Environment.find o) (Environment.find o') L.tie.TableRefs := by
  cases owner with
  | runtime => exact seamless.recorded_agree .runtime
  | script id =>
      exact (checkOwner_agree seamless.toLawful id).lift.andThen fun _ _ =>
        seamless.recorded_agree (.script id)
  | module id =>
      exact (checkOwner_agree seamless.toLawful id).lift.andThen fun _ _ =>
        seamless.recorded_agree (.module id)

-----------------------------------------------------------------------------------------
-- Hooks of closures
-----------------------------------------------------------------------------------------

omit seamless in
theorem checkCallable_agree (value : L.tie.Values v w) (subject : String)
    : L.Agree i (Hook.checkCallable v subject) (Hook.checkCallable w subject) Eq := by
  unfold Hook.checkCallable
  rw [value.isFunction, value.kind]
  split
  · exact .pure rfl
  · exact refuse_agree _

theorem install_agree (target : L.tie.Values v w) (replacement : L.tie.Values x y)
    : L.Agree i (Hook.install v x) (Hook.install w y) (Option.Rel L.tie.ClosureRefs) := by
  have itself := Tie.Values.beq replacement target
  have cloned := clone_agree (i := i) seamless.toLawful target
  cases target with
  | native => exact .pure .none
  | nil | boolean | number | string | table => exact refuse_agree _
  | @closure c d tied =>
      refine (checkCallable_agree replacement _).andThen fun _ _ => ?_
      rw [itself]
      split
      · exact .failThen _ _ _
      · refine cloned.lift.bind fun p q copied => ?_
        cases copied with
        | none => exact refuse_agree _
        | some copy =>
            cases copy with
            | nil | boolean | number | string | table | native => exact refuse_agree _
            | @closure e f copy =>
                refine (seamless.hold_agree (.closure tied)).lift.bind fun _ _ target => ?_
                refine (Agree.onHalt (seamless.hold_agree (.closure copy)).lift
                  fun alike => seamless.letGo alike target).bind fun _ _ former => ?_
                refine (seamless.holdAmong_agree replacement
                  (.cons former (.cons target .nil))).bind fun _ _ taken => ?_
                have hook : L.tie.FunctionHooks ⟨_, _, _⟩ ⟨_, _, _⟩ := ⟨target, former, taken⟩
                refine .andThen (.onHalt (setRedirect_agree seamless.toLawful tied
                  (.some replacement)).lift fun alike =>
                    seamless.letGoAll alike hook.guards) fun _ _ => ?_
                refine .bind .get fun m n alike => ?_
                have before := (seamless.reads alike).hooks.function? tied
                refine .andThen (.modify fun alike => seamless.setHooks alike
                  ((seamless.reads alike).hooks.insertFunction tied hook)) fun _ _ => ?_
                generalize m.hooks.function? c = o at *
                generalize n.hooks.function? d = o' at *
                cases before with
                | none => exact .pure (.some copy)
                | some previous =>
                    exact (seamless.giveUp_agree previous.guards).andThen fun _ _ =>
                      .pure (.some copy)

theorem restore_agree (target : L.tie.Values v w)
    : L.Agree i (Hook.restore v) (Hook.restore w) Eq := by
  cases target with
  | nil | boolean | number | string | table | native => exact .pure rfl
  | @closure c d tied =>
      refine .bind .get fun m n alike => ?_
      have known := (seamless.reads alike).hooks.function? tied
      generalize m.hooks.function? c = o at *
      generalize n.hooks.function? d = p at *
      cases known with
      | none => exact .pure rfl
      | some hook =>
          refine .andThen (.modify fun alike => seamless.setHooks alike
            ((seamless.reads alike).hooks.eraseFunction tied)) fun _ _ => ?_
          refine .andThen (.onHalt (setRedirect_agree seamless.toLawful tied .none).lift
            fun alike => seamless.letGoAll alike hook.guards) fun _ _ => ?_
          exact (seamless.giveUp_agree hook.guards).andThen fun _ _ => .pure rfl

-----------------------------------------------------------------------------------------
-- Hooks of metamethods
-----------------------------------------------------------------------------------------

omit seamless in
theorem writeUnprotected_agree (lawful : L.Lawful) {a b : TableRef} (tied : L.tie.TableRefs a b)
    (name : String) (value : L.tie.Values v w)
    : L.Agree i (Hook.writeUnprotected a (.string name) v)
        (Hook.writeUnprotected b (.string name) w) Eq := by
  refine (table_agree lawful tied).bind fun _ _ alike => ?_
  refine (setReadOnly_agree lawful tied false).andThen fun _ _ => ?_
  refine (rawSet_agree lawful tied (.string name) value).attempt.bind fun _ _ written => ?_
  rw [alike.readOnly]
  refine (setReadOnly_agree lawful tied _).andThen fun _ _ => ?_
  cases written with
  | ok => exact .pure rfl
  | error fault => exact .fail _

theorem takePrevious_agree {a b : TableRef} (tied : L.tie.TableRefs a b) (name : String)
    (existing : L.tie.Values v w)
    : L.Agree i (Hook.takePrevious (a, name) v) (Hook.takePrevious (b, name) w)
        L.tie.Guards := by
  refine .bind .get fun m n alike => ?_
  have known := (seamless.reads alike).hooks.metamethod? tied name
  generalize m.hooks.metamethod? (a, name) = o at *
  generalize n.hooks.metamethod? (b, name) = p at *
  cases known with
  | none => exact (seamless.hold_agree existing).lift
  | some hook =>
      refine .andThen (.modify fun alike => seamless.setHooks alike
        ((seamless.reads alike).hooks.eraseMetamethod tied name)) fun _ _ => ?_
      exact (seamless.giveUp_agree (.cons hook.former (.cons hook.replacement .nil))).andThen
        fun _ _ => .pure hook.previous

theorem installMetamethod_agree (object : L.tie.Values v w) (name : String)
    (replacement : L.tie.Values x y)
    : L.Agree i (Hook.installMetamethod v name x) (Hook.installMetamethod w name y)
        L.tie.Values := by
  refine (checkCallable_agree replacement _).andThen fun _ _ => ?_
  refine (metatable_agree seamless.toLawful object).lift.bind fun _ _ found => ?_
  cases found with
  | none =>
      rw [object.kind]
      exact refuse_agree _
  | @some a b tied =>
      refine (rawGet_agree seamless.toLawful tied (.string name)).lift.bind
        fun held held' existing => ?_
      rw [existing.isNil]
      split
      · exact .failThen _ _ _
      · refine (clone_agree seamless.toLawful existing).lift.bind fun p q copied => ?_
        have former : L.tie.Values (p.getD held) (q.getD held') := by
          cases copied with
          | none => exact existing
          | some copy => exact copy
        refine (seamless.takePrevious_agree tied name existing).bind fun _ _ previous => ?_
        refine (Agree.onHalt (seamless.hold_agree former).lift
          fun alike => seamless.letGo alike previous).bind fun _ _ copy => ?_
        refine (seamless.holdAmong_agree replacement
          (.cons copy (.cons previous .nil))).bind fun _ _ taken => ?_
        have hook : L.tie.MetamethodHooks ⟨_, _, _⟩ ⟨_, _, _⟩ := ⟨previous, copy, taken⟩
        refine .andThen (.onHalt (writeUnprotected_agree seamless.toLawful tied name
          replacement).lift fun alike => seamless.letGoAll alike hook.guards) fun _ _ => ?_
        exact .andThen (.modify fun alike => seamless.setHooks alike
          ((seamless.reads alike).hooks.insertMetamethod tied name hook)) fun _ _ =>
            .pure former

theorem restoreMetamethod_agree (object : L.tie.Values v w) (name : String)
    : L.Agree i (Hook.restoreMetamethod v name) (Hook.restoreMetamethod w name) Eq := by
  refine (metatable_agree seamless.toLawful object).lift.bind fun _ _ found => ?_
  cases found with
  | none => exact .pure rfl
  | @some a b tied =>
      refine .bind .get fun m n alike => ?_
      have known := (seamless.reads alike).hooks.metamethod? tied name
      generalize m.hooks.metamethod? (a, name) = o at *
      generalize n.hooks.metamethod? (b, name) = p at *
      cases known with
      | none => exact .pure rfl
      | some hook =>
          refine .andThen (.modify fun alike => seamless.setHooks alike
            ((seamless.reads alike).hooks.eraseMetamethod tied name)) fun _ _ => ?_
          refine .andThen (.onHalt (writeUnprotected_agree seamless.toLawful tied name
            hook.previous.value).lift fun alike => seamless.letGoAll alike hook.guards)
              fun _ _ => ?_
          exact (seamless.giveUp_agree hook.guards).andThen fun _ _ => .pure rfl

-----------------------------------------------------------------------------------------
-- Connections
-----------------------------------------------------------------------------------------

theorem register_agree (signal : String) (callback : L.tie.Values v w)
    : L.Agree i (Connection.register signal v) (Connection.register signal w) Eq := by
  have connected : L.Agree i
      (do
        let guard ← Vm.hold v
        modifyGet fun m =>
          (m.connections.size,
            { m with connections := m.connections.push { signal, callback := some guard } })
        : Action Nat)
      (do
        let guard ← Vm.hold w
        modifyGet fun m =>
          (m.connections.size,
            { m with connections := m.connections.push { signal, callback := some guard } }))
      Eq := by
    refine (seamless.hold_agree callback).lift.bind fun _ _ guard => .modifyGet fun alike => ?_
    have connections := (seamless.reads alike).connections
    exact ⟨seamless.setConnections alike (connections.push ⟨rfl, .some guard, rfl⟩),
      connections.size⟩
  unfold Connection.register
  rw [callback.isFunction, callback.kind]
  split
  · exact connected
  · exact .failThen _ _ _

theorem disconnect_agree (index : Nat)
    : L.Agree i (Connection.disconnect index) (Connection.disconnect index) Eq := by
  refine .modifyGet fun {m n} alike => ?_
  have connections := (seamless.reads alike).connections
  have ended := seamless.setConnections alike (connections.disconnect index)
  have found := connections.getElem? index
  dsimp only
  generalize m.connections[index]? = o at *
  generalize n.connections[index]? = p at *
  cases found with
  | none => exact ⟨ended, rfl⟩
  | @some c d single =>
      obtain ⟨-, callback, -⟩ := single
      rcases c with ⟨_, callback, _⟩
      rcases d with ⟨_, other, _⟩
      cases callback with
      | none => exact ⟨ended, rfl⟩
      | some guard => exact ⟨seamless.letGo ended guard, rfl⟩

theorem regular : L.Regular where
  toLawful := seamless.toLawful
  find := seamless.find_agree
  install := seamless.install_agree
  restore := seamless.restore_agree
  installMetamethod name object := seamless.installMetamethod_agree object name
  restoreMetamethod name object := seamless.restoreMetamethod_agree object name
  register := seamless.register_agree
  disconnect := seamless.disconnect_agree

end Seamless
end Likeness
end HookMachine
