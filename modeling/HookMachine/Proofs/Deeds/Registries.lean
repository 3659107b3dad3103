import HookMachine.Environment.Lookup
import HookMachine.Connection.Firing
import HookMachine.Clearance
import HookMachine.Proofs.Deeds.Operations
import HookMachine.Proofs.Hook.Slots

/-!
Levels, environments, connections and hooks by the judgement on scopes. Making an environment is a
deed, as is putting a hook on record; unhooking is none, except that it may write a metatable.
-/

namespace HookMachine

open Scope (Keeps Kept)

variable {s : Scope} {m : Machine}

-----------------------------------------------------------------------------------------
-- Levels
-----------------------------------------------------------------------------------------

namespace Machine

/-- The calling context may change protected state. -/
def Privileged (m : Machine) : Prop :=
  m.config.privilegedLevel ≤ m.identities.level m.context

/-- The machine after the level of the calling context is looked at. -/
def observed (m : Machine) : Machine :=
  { m with identities := m.identities.observe m.context }

end Machine

namespace Clearance

theorem level_keeps : s.Keeps level :=
  .modifyGet fun _ => .observed

theorem isTrusted_keeps : s.Keeps isTrusted :=
  level_keeps.andThen fun _ => .pure trivial

theorem require_keeps (operation : String) (required : Nat)
    : s.Keeps (require operation required) := by
  refine level_keeps.lift.andThen fun actual => ?_
  split
  · exact Action.refuse_keeps _
  · exact .pure trivial

theorem requirePrivilege_of_privileged (operation : String) (privileged : m.Privileged)
    : requirePrivilege operation m = .ok () m.observed := by
  have enough : ¬m.identities.level m.context < m.config.privilegedLevel :=
    Nat.not_lt.mpr privileged
  have looked : (liftM level : Action Nat) m = .ok (m.identities.level m.context) m.observed := rfl
  refine (Run.bind_get ..).trans ((Run.bind_ok looked).trans ?_)
  rw [if_neg enough]
  rfl

/-- Without the privilege an operation is refused once the level is looked at. -/
theorem requirePrivilege_of_not (operation : String) (missing : ¬m.Privileged)
    : requirePrivilege operation m
      = .error (.failed (.refused (.denied operation m.config.privilegedLevel
          (m.identities.level m.context)))) m.observed := by
  have lacks : m.identities.level m.context < m.config.privilegedLevel := Nat.lt_of_not_le missing
  have looked : (liftM level : Action Nat) m = .ok (m.identities.level m.context) m.observed := rfl
  refine (Run.bind_get ..).trans ((Run.bind_ok looked).trans ?_)
  rw [if_pos lacks]
  rfl

/-- What requires the privilege is done only with it. -/
theorem privileged_kept {α : Type} {x : Action α} {post : α → Machine → Prop} (operation : String)
    (done : m.Privileged → s.Kept m.observed post (x m.observed))
    : s.Kept m post ((requirePrivilege operation >>= fun _ => x) m) := by
  have observed : s.Leads m m.observed := .single .observed
  by_cases privileged : m.Privileged
  · rw [Run.bind_ok (requirePrivilege_of_privileged operation privileged)]
    exact (done privileged).before observed
  · rw [Run.bind_error (requirePrivilege_of_not operation privileged)]
    exact observed

end Clearance

-----------------------------------------------------------------------------------------
-- Environments
-----------------------------------------------------------------------------------------

namespace Environment

theorem tableOf_keeps (guard : Guard) : s.Keeps (tableOf guard) := by
  unfold tableOf
  split
  · exact .pure trivial
  · exact Action.refuse_keeps _

/-- A table that is not in use yet. -/
theorem newTable_kept (precedes : s.Precedes m)
    : s.Kept m (fun ref after => s.Fresh ref ∧ after.heap.isLive (.table ref) = true
        ∧ after.environments = m.environments)
        ((liftM Vm.newTable : Action TableRef) m) := by
  have kept := (Vm.newTable_keeps (s := s)).outcome m precedes
  exact ⟨kept.1, kept.2, Arena.contains_iff.mpr ⟨{}, Arena.get_insert_self ..⟩, rfl⟩

/-- The metatable of all environments is made if there is none, which no owner takes notice of. -/
theorem fallback_kept (allowed : s.allows .record) (precedes : s.Precedes m)
    : s.Kept m (fun _ after => ∃ fallback, after.environments = { m.environments with fallback })
        (fallback m) := by
  unfold fallback
  rw [Run.bind_get]
  rcases missing : m.environments.fallback with _ | guard
  case some =>
    refine ((tableOf_keeps guard).closed precedes).mono fun _ after _ kept => ?_
    exact ⟨m.environments.fallback, kept.2⟩
  case none =>
    refine (newTable_kept precedes).bind fun ref m₁ leads₁ ⟨fresh, live₁, same₁⟩ => ?_
    replace precedes := leads₁.precedes precedes
    have held := (Vm.hold_keeps (s := s.closed) (.table ref)).lift
    refine (held.closed precedes).bind fun guard m₂ leads₂ ⟨holds, same₂⟩ => ?_
    rw [Run.bind_get]
    have shut
        : s.closed.Keeps (Run.onHalt (do
            Vm.rawSet ref (.string "__index") (.table m₂.globals)
            Vm.setReadOnly ref true : Action Unit) (·.letGo guard)) := by
      have named := (Vm.rawSet_keeps (s := s.closed) (.string "__index") (.table m₂.globals)
        (.inl fresh)).lift
      refine .onHalt (named.andThen fun _ => ?_) (·.beside_letGo guard)
      exact (Vm.setReadOnly_keeps (s := s.closed) (.inl fresh)).lift
    refine (shut.closed (leads₂.precedes precedes)).bind fun _ m₃ leads₃ ⟨_, same₃⟩ => ?_
    have same : m₃.environments = m.environments := same₃.trans (same₂.trans same₁)
    have live : m₃.heap.isLive (.table ref) = true := leads₃.live (leads₂.live live₁)
    refine ⟨.single (.founded allowed ?_ holds live), some guard, ?_⟩
    · rw [same]
      exact missing
    · exact congrArg (fun cache : EnvironmentCache => { cache with fallback := some guard }) same

/-- A new environment is held by a guard. -/
theorem create_kept (allowed : s.allows .record) (precedes : s.Precedes m)
    : s.Kept m (fun guard after =>
          (∃ fallback, after.environments = { m.environments with fallback })
            ∧ ∃ ref, guard.value = .table ref ∧ s.Fresh ref ∧ after.heap.isLive (.table ref) = true)
        (create m) := by
  refine (fallback_kept allowed precedes).bind fun metatable m₁ leads₁ ⟨fallback, same₁⟩ => ?_
  replace precedes := leads₁.precedes precedes
  refine (newTable_kept precedes).bind fun ref m₂ leads₂ ⟨fresh, live₂, same₂⟩ => ?_
  replace precedes := leads₂.precedes precedes
  have held := (Vm.hold_keeps (s := s.closed) (.table ref)).lift
  refine (held.closed precedes).bind fun guard m₃ leads₃ ⟨holds, same₃⟩ => ?_
  have attached : s.closed.Keeps
      (Run.onHalt (Vm.setMetatable ref (some metatable)) (·.letGo guard) : Action Unit) :=
    .onHalt (Vm.setMetatable_keeps (s := s.closed) _ (.inl fresh)).lift (·.beside_letGo guard)
  refine (attached.closed (leads₃.precedes precedes)).bind fun _ m₄ leads₄ ⟨_, same₄⟩ => ?_
  have live : m₄.heap.isLive (.table ref) = true := leads₄.live (leads₃.live live₂)
  exact ⟨.refl, ⟨fallback, same₄.trans (same₃.trans (same₂.trans same₁))⟩, ref, holds, fresh, live⟩

/-- An environment is put on record, if none was since the origin. -/
theorem recorded_kept (allowed : s.allows .record) (precedes : s.Precedes m)
    (same : ∀ other, m.environments.find? other = s.origin.environments.find? other)
    (owner : EnvironmentOwner)
    : s.Kept m (fun _ _ => True) (recorded owner m) := by
  unfold recorded
  rw [Run.bind_get]
  rcases unknown : m.environments.find? owner with _ | guard
  case some => exact (tableOf_keeps guard).outcome m precedes
  case none =>
    refine (create_kept allowed precedes).bind fun guard m₁ leads made => ?_
    obtain ⟨⟨fallback, kept⟩, ref, holds, fresh, live⟩ := made
    have known (other : EnvironmentOwner)
        : m₁.environments.find? other = m.environments.find? other := by
      rw [kept]
      cases other <;> rfl
    have entered : s.Change m₁ { m₁ with environments := m₁.environments.insert guard owner } :=
      .recorded allowed (fun other => (known other).trans (same other))
        ((known owner).trans unknown) holds fresh live
    have entered : s.Leads m₁ _ := .single entered
    have after := entered.precedes (leads.precedes precedes)
    exact ((tableOf_keeps guard).outcome _ after).before entered

theorem find_kept (allowed : s.allows .record) (precedes : s.Precedes m)
    (same : ∀ other, m.environments.find? other = s.origin.environments.find? other)
    (owner : EnvironmentOwner)
    : s.Kept m (fun _ _ => True) (find owner m) := by
  have checked (id : Value)
      : s.Kept m (fun _ _ => True)
          ((do (Vm.checkOwner id : Vm Unit); recorded owner : Action TableRef) m) := by
    have checks := ((Vm.checkOwner_looks id).keeps (s := s.closed)).lift
    refine (checks.closed precedes).bind fun _ after leads ⟨_, kept⟩ => ?_
    exact recorded_kept allowed (leads.precedes precedes) (fun other => by rw [kept, same]) owner
  cases owner with
  | runtime => exact recorded_kept allowed precedes same .runtime
  | script id | module id => exact checked id

theorem load_kept (allowed : s.allows .record) (precedes : s.Precedes m)
    (same : ∀ other, m.environments.find? other = s.origin.environments.find? other)
    (owner : EnvironmentOwner) (prototype : PrototypeRef)
    : s.Kept m (fun _ _ => True) (load owner prototype m) :=
  (find_kept allowed precedes same owner).bind fun _ after leads _ =>
    (Vm.instantiate_keeps _ _).lift.outcome after (leads.precedes precedes)

end Environment

-----------------------------------------------------------------------------------------
-- Connections
-----------------------------------------------------------------------------------------

namespace Connection

theorem register_keeps (signal : String) (callback : Value)
    : s.Keeps (register signal callback) := by
  have connected : s.Keeps (do
      let guard ← Vm.hold callback
      modifyGet fun m =>
        (m.connections.size,
          { m with connections := m.connections.push { signal, callback := some guard } })
      : Action Nat) :=
    (Vm.hold_keeps _).lift.andThen fun _ =>
      Vm.besideGet_keeps fun _ => ⟨rfl, rfl, rfl, rfl, rfl, rfl, rfl, rfl, rfl, rfl, .refl _⟩
  unfold register
  split
  · exact connected
  · exact .failThen _ _

theorem setEnabled_keeps (index : Nat) (on : Bool) : s.Keeps (setEnabled index on) :=
  Vm.besideGet_keeps fun _ => ⟨rfl, rfl, rfl, rfl, rfl, rfl, rfl, rfl, rfl, rfl, .refl _⟩

theorem disconnect_keeps (index : Nat) : s.Keeps (disconnect index) := by
  refine Vm.besideGet_keeps fun m => ?_
  dsimp only
  split
  · exact ⟨rfl, rfl, rfl, rfl, rfl, rfl, rfl, rfl, rfl, rfl, .refl _⟩
  · exact ⟨rfl, rfl, rfl, rfl, rfl, rfl, rfl, rfl, rfl, rfl, .refl _⟩

end Connection

-----------------------------------------------------------------------------------------
-- Hooks
-----------------------------------------------------------------------------------------

namespace Hook

theorem checkCallable_looks (value : Value) (subject : String)
    : Run.Looks (checkCallable value subject) := by
  unfold checkCallable
  split
  · exact .pure ()
  · exact .fail _

theorem letGoAll_keeps (guards : List Guard)
    : s.Keeps (modify (·.letGoAll guards) : Action Unit) :=
  Vm.beside_keeps (·.beside_letGoAll guards)

theorem install_keeps (allowed : s.allows .hook) (target replacement : Value)
    : s.Keeps (install target replacement) := by
  unfold install
  split
  · exact .pure trivial
  · refine (checkCallable_looks _ _).keeps.andThen fun _ => ?_
    split
    · exact .failThen _ _
    · refine (Vm.clone_keeps _).lift.andThen fun copy => ?_
      split
      · refine (Vm.hold_keeps _).lift.andThen fun targetGuard => ?_
        refine (Vm.holdAmong_keeps _ (·.beside_letGo _)).andThen fun formerGuard => ?_
        refine (Vm.holdAmong_keeps _ (·.beside_letGoAll _)).andThen fun replacementGuard => ?_
        refine .andThen (.onHalt (Vm.setRedirect_keeps _ _).lift (·.beside_letGoAll _)) fun _ => ?_
        refine .andThen .get fun m => .andThen (.modify fun _ => .hooked allowed) fun _ => ?_
        dsimp only
        split
        · exact (letGoAll_keeps _).andThen fun _ => .pure trivial
        · exact .pure trivial
      · exact Action.refuse_keeps _
  · exact Action.refuse_keeps _

theorem restore_keeps (target : Value) : s.Keeps (restore target) := by
  unfold restore
  split
  · refine .andThen .get fun m => ?_
    split
    · exact .pure trivial
    · refine .andThen (.modify fun m => ?_) fun _ => ?_
      · exact .unhooked List.filter_sublist (.refl _)
      · refine .andThen (.onHalt (Vm.setRedirect_keeps _ _).lift (·.beside_letGoAll _)) fun _ => ?_
        exact (letGoAll_keeps _).andThen fun _ => .pure trivial
  · exact .pure trivial

theorem takePrevious_keeps (slot : MetamethodSlot) (existing : Value)
    : s.Keeps (takePrevious slot existing) := by
  refine .andThen .get fun m => ?_
  split
  · refine .andThen (.modify fun m => ?_) fun _ => ?_
    · exact .unhooked (.refl _) List.filter_sublist
    · exact (letGoAll_keeps _).andThen fun _ => .pure trivial
  · exact (Vm.hold_keeps _).lift.mono fun _ _ => trivial

/-- What an operation that may write slots has come to: it keeps within a scope, or its result is as
`done` says and it has written slots of some of the tables.
-/
def Settled {α : Type} (s : Scope) (tables : TableRef → Prop) (done : α → Prop) (m : Machine)
    : EStateM.Result (Halt Failure) Machine α → Prop
  | .ok a after => s.Leads m after ∨ (done a ∧ (s.patching tables).Leads m after)
  | .error _ after => s.Leads m after

namespace Settled

variable {α β : Type} {tables : TableRef → Prop} {done : β → Prop} {x : Action α}
  {f : α → Action β}

theorem of_keeps {y : Action β} (keeps : s.Keeps y) (precedes : s.Precedes m)
    : Settled s tables done m (y m) := by
  have kept := keeps.outcome m precedes
  generalize y m = outcome at kept ⊢
  cases outcome with
  | ok b after => exact .inl kept.1
  | error halt after => exact kept

theorem look (looks : Run.Looks x)
    (rest : ∀ a, x m = .ok a m → Settled s tables done m (f a m))
    : Settled s tables done m ((x >>= f) m) := by
  rcases looks.outcome m with ⟨a, ran⟩ | ⟨error, ran⟩
  · rw [Run.bind_ok ran]
    exact rest a ran
  · rw [Run.bind_error ran]
    exact Relation.ReflTransGen.refl

theorem lookUp {y : Vm α} (looks : Run.Looks y)
    (rest : ∀ a, y m = .ok a m → Settled s tables done m (f a m))
    : Settled s tables done m (((liftM y : Action α) >>= f) m) := by
  rcases looks.outcome m with ⟨a, ran⟩ | ⟨fault, ran⟩
  · rw [Run.bind_ok (Run.lift_ok ran)]
    exact rest a ran
  · rw [Run.bind_error (Run.lift_error ran)]
    exact Relation.ReflTransGen.refl

theorem bind {post : α → Prop} (keeps : s.Keeps x post) (precedes : s.Precedes m)
    (rest : ∀ a after, s.Precedes after → Settled s tables done after (f a after))
    : Settled s tables done m ((x >>= f) m) := by
  have kept := keeps.outcome m precedes
  rcases ran : x m with ⟨a, after⟩ | ⟨halt, after⟩ <;> rw [ran] at kept
  · rw [Run.bind_ok ran]
    have settled := rest a after (kept.1.precedes precedes)
    generalize f a after = outcome at settled ⊢
    cases outcome with
    | ok b last =>
        have wider : (s.patching tables).Leads m after := kept.1.mono rfl fun _ => Or.inl
        exact settled.imp kept.1.trans (And.imp_right wider.trans)
    | error halt last => exact kept.1.trans settled
  · rw [Run.bind_error ran]
    exact kept

/-- A slot is written, and then nothing fails. -/
theorem write {mt : TableRef} {next : Unit → Action β} (name : String) (value : Value)
    {undo : Machine → Machine} (undone : ∀ m : Machine, m.Beside (undo m)) (patched : tables mt)
    (last : ∀ after : Machine, ∃ b ends, next () after = .ok b ends ∧ done b
      ∧ (s.patching tables).Leads after ends)
    : Settled s tables done m
        ((Run.onHalt (liftM (writeUnprotected mt (.string name) value) : Action Unit) undo
          >>= next) m) := by
  have fails {fault : Fault} (failed : writeUnprotected mt (.string name) value m
        = .error (.failed fault) m)
      : Settled s tables done m
          ((Run.onHalt (liftM (writeUnprotected mt (.string name) value) : Action Unit) undo
            >>= next) m) := by
    rw [Run.bind_error (Run.onHalt_error (Run.lift_error failed))]
    exact Relation.ReflTransGen.single (.beside (undone m))
  rcases found : m.heap.tables.get mt.handle with miss | t
  · exact fails (writeUnprotected_of_miss found)
  · cases owned : m.heap.owns value with
    | false => exact fails (writeUnprotected_of_foreign found owned)
    | true =>
        have ran : writeUnprotected mt (.string name) value m
            = .ok () (m.slotWritten (mt, name) value) :=
          writeUnprotected_of_get found owned
        rw [Run.bind_ok (Run.onHalt_ok (Run.lift_ok ran))]
        obtain ⟨b, ends, finished, holds, leads⟩ := last (m.slotWritten (mt, name) value)
        rw [finished]
        have written : (s.patching tables).Change m (m.slotWritten (mt, name) value) :=
          .patched (Table.refills_set _ value) (.inr ⟨mt, patched, rfl⟩)
        exact .inr ⟨holds, .head written leads⟩

/-- Slots may be written by what turns out to be done. -/
theorem kept {outcome : EStateM.Result (Halt Failure) Machine β}
    (settled : Settled s tables done m outcome)
    (allowed : ∀ b after mt, outcome = .ok b after → done b → tables mt → s.allows (.patch mt))
    : s.Kept m (fun _ _ => True) outcome := by
  cases outcome with
  | ok b after =>
      refine ⟨?_, trivial⟩
      rcases settled with leads | ⟨holds, leads⟩
      · exact leads
      · refine leads.mono rfl fun deed extended => ?_
        rcases extended with allows | ⟨mt, patched, rfl⟩
        · exact allows
        · exact allowed b after mt rfl holds patched
  | error halt after => exact settled

end Settled

theorem installMetamethod_kept (precedes : s.Precedes m) (hook : s.allows .hook) {object : Value}
    {name : String} {replacement : Value}
    (patch : ∀ mt former after, Vm.metatable object m = .ok (some mt) m
      → installMetamethod object name replacement m = .ok former after → s.allows (.patch mt))
    : s.Kept m (fun _ _ => True) (installMetamethod object name replacement m) := by
  let patched (mt : TableRef) : Prop := Vm.metatable object m = .ok (some mt) m
  have settled : Settled s patched (fun _ => True) m
      (installMetamethod object name replacement m) := by
    refine .look (checkCallable_looks _ _) fun _ _ => ?_
    refine .lookUp (Vm.metatable_looks object) fun mt found => ?_
    cases mt with
    | none => exact .of_keeps (Action.refuse_keeps _) precedes
    | some mt =>
        refine .lookUp (Vm.rawGet_looks _ _) fun existing _ => ?_
        split
        · exact .of_keeps (.failThen _ _) precedes
        · refine .bind (Vm.clone_keeps _).lift precedes fun copy m precedes => ?_
          refine .bind (takePrevious_keeps _ _) precedes fun previous m precedes => ?_
          refine .bind (Vm.holdAmong_keeps _ (·.beside_letGo _)) precedes fun former m precedes => ?_
          refine .bind (Vm.holdAmong_keeps _ (·.beside_letGoAll _)) precedes
            fun guard m precedes => ?_
          refine .write name replacement (·.beside_letGoAll _) found fun after =>
            ⟨_, _, rfl, trivial, ?_⟩
          exact .single (.hooked (.inl hook))
  exact settled.kept fun former after mt ended _ found => patch mt former after found ended

theorem restoreMetamethod_kept (precedes : s.Precedes m) {object : Value} {name : String}
    (patch : ∀ mt after, Vm.metatable object m = .ok (some mt) m
      → restoreMetamethod object name m = .ok true after → s.allows (.patch mt))
    : s.Kept m (fun _ _ => True) (restoreMetamethod object name m) := by
  let patched (mt : TableRef) : Prop := Vm.metatable object m = .ok (some mt) m
  have settled : Settled s patched (fun restored => restored = true) m
      (restoreMetamethod object name m) := by
    refine .lookUp (Vm.metatable_looks object) fun mt found => ?_
    cases mt with
    | none => exact .of_keeps (.pure trivial) precedes
    | some mt =>
        refine .look .get fun now _ => ?_
        cases now.hooks.metamethod? (mt, name) with
        | none => exact .of_keeps (.pure trivial) precedes
        | some hook =>
            refine .bind (.modify fun m => ?_) precedes fun _ m precedes => ?_
            · exact .unhooked (.refl _) List.filter_sublist
            · refine .write name hook.previous.value (·.beside_letGoAll _) found fun after =>
                ⟨_, _, rfl, rfl, ?_⟩
              exact .single (.beside (after.beside_letGoAll _))
  exact settled.kept fun restored after mt ended done found => patch mt after found (done ▸ ended)

end Hook
end HookMachine
