import HookMachine.Clearance
import HookMachine.Connection.Firing
import HookMachine.Environment.Lookup
import HookMachine.Proofs.Soundness.Primitives

/-!
Environments, connections and levels by the rules. A registry takes over the guard of what it
records and gives back that of what it drops.
-/

namespace HookMachine

open Rules (Tracks Leads)

variable {rules : Rules} {own : List Guard} {m : Machine}

-----------------------------------------------------------------------------------------
-- Environments
-----------------------------------------------------------------------------------------

/-- A guard goes to the environments. -/
theorem Rules.Sound.changeEnvironments {guard : Guard} (sound : rules.Sound (guard :: own) m)
    (environments : EnvironmentCache)
    (within : environments.guards.Subperm (guard :: m.environments.guards))
    : rules.Passed m own { m with environments } := by
  refine sound.changeRegistries environments m.hooks.metamethods m.connections ?_
  refine (List.perm_append_comm.subperm.trans ?_).trans List.perm_append_comm.subperm
  simp only [Machine.registered, List.append_assoc] at within ⊢
  refine ((List.subperm_append_right _).mpr within).trans ?_
  have others
      : (guard :: (m.environments.guards ++ (m.hooks.guards
          ++ ConnectionRegistry.guards m.connections) ++ own)).Perm
        (m.environments.guards ++ (m.hooks.guards ++ ConnectionRegistry.guards m.connections)
          ++ guard :: own) :=
    List.perm_middle.symm
  simpa only [List.cons_append, List.append_assoc] using others.subperm

namespace Environment

theorem tableOf_leads (sound : rules.Sound own m) {guard : Guard}
    (valid : rules.Valid m guard.value)
    : rules.Leads own (tableOf guard) m
        fun ref after => m = after ∧ rules.Valid m (.table ref) := by
  unfold tableOf
  split
  · rename_i ref same
    exact .pure sound ⟨rfl, same ▸ valid⟩
  · exact .fail sound (Rules.tolerates_refused _) (.refl _)

theorem fallback_leads (sound : rules.Sound own m)
    : rules.Leads own fallback m fun ref after => rules.Valid after (.table ref) := by
  refine .get ?_
  split
  · rename_i guard entry
    have listed : guard ∈ m.registered := by
      simp [Machine.registered, EnvironmentCache.guards, entry]
    refine (tableOf_leads sound (sound.registered listed)).mono ?_
    rintro ref _ _ ⟨rfl, valid⟩
    exact valid
  · refine (Vm.newTable_leads sound).lift.bind fun ref m₁ made valid => ?_
    refine (Vm.hold_tracks made.sound valid.1).lift.bind fun guard m₂ held valid => ?_
    refine .get ?_
    have shut : rules.Tracks
        (do
          liftM (Vm.rawSet ref (.string "__index") (.table m₂.globals))
          liftM (Vm.setReadOnly ref true) : Action Unit)
        m₂ (fun _ => guard :: own) (guard :: own) fun _ _ => True := by
      refine (Vm.rawSet_leads held.sound valid.2 (Rules.valid_string _)
        held.sound.globals_valid).lift.bind fun _ m₃ wrote _ => ?_
      exact (Vm.setReadOnly_leads wrote.sound true (wrote.later.valid valid.2)).lift
    refine (shut.onHalt fun sound => sound.letGo).bind fun _ m₃ closed _ => ?_
    have changed :=
      closed.sound.changeEnvironments _ (m₃.environments.guards_fallback guard)
    refine .bind (.step changed) fun _ m₄ recorded _ => ?_
    exact .pure recorded.sound ((closed.later.trans recorded.later).valid valid.2)

theorem create_tracks (sound : rules.Sound own m)
    : rules.Tracks create m (fun guard => guard :: own) own
        fun guard after => rules.Valid after guard.value := by
  refine (fallback_leads sound).bind fun metatable m₁ read mt_valid => ?_
  refine (Vm.newTable_leads read.sound).lift.bind fun ref m₂ made valid => ?_
  refine (Vm.hold_tracks made.sound valid.1).lift.bind fun guard m₃ held value => ?_
  obtain ⟨same, valid⟩ := value
  have attach :=
    Vm.setMetatable_leads held.sound (some metatable) valid (by
      rintro _ ⟨⟩
      exact (made.later.trans held.later).valid mt_valid)
  refine (attach.lift.onHalt fun sound => sound.letGo).bind fun _ m₄ done _ => ?_
  exact .ok rfl (.refl done.sound) (same ▸ done.later.valid valid)

/-- What is found is on record. -/
theorem mem_registered_of_find? {owner : EnvironmentOwner} {guard : Guard}
    (found : m.environments.find? owner = some guard)
    : guard ∈ m.registered := by
  simp only [Machine.registered, EnvironmentCache.guards, List.mem_append, Option.mem_toList]
  cases owner with
  | runtime => exact .inl (.inl (.inl (.inl (.inr found))))
  | script id =>
      obtain ⟨entry, hit, rfl⟩ := Option.map_eq_some_iff.mp found
      exact .inl (.inl (.inl (.inr (List.mem_map_of_mem (List.mem_of_find?_eq_some hit)))))
  | module id =>
      obtain ⟨entry, hit, rfl⟩ := Option.map_eq_some_iff.mp found
      exact .inl (.inl (.inr (List.mem_map_of_mem (List.mem_of_find?_eq_some hit))))

theorem recorded_leads (sound : rules.Sound own m) (owner : EnvironmentOwner)
    : rules.Leads own (recorded owner) m fun ref after => rules.Valid after (.table ref) := by
  refine .get ?_
  split
  · rename_i guard found
    have known := sound.registered (mem_registered_of_find? found)
    refine (tableOf_leads sound known).mono ?_
    rintro ref _ _ ⟨rfl, valid⟩
    exact valid
  · refine (create_tracks sound).bind fun guard m₁ made valid => ?_
    have changed := made.sound.changeEnvironments _ (m₁.environments.guards_insert guard owner)
    refine .bind (.step changed) fun _ m₂ recorded _ => ?_
    refine (tableOf_leads recorded.sound (recorded.later.valid valid)).mono ?_
    rintro ref _ _ ⟨rfl, valid⟩
    exact valid

theorem find_leads (sound : rules.Sound own m) (owner : EnvironmentOwner)
    (valid : ∀ value ∈ owner.values, rules.Valid m value)
    : rules.Leads own (find owner) m fun ref after => rules.Valid after (.table ref) := by
  have checked {id : Value} (valid : rules.Valid m id)
      : rules.Leads own (liftM (Vm.checkOwner id) : Action Unit) m fun _ after => m = after :=
    (Vm.checkOwner_leads sound valid).lift.mono fun _ _ _ held => held.1
  cases owner with
  | runtime => exact recorded_leads sound .runtime
  | script id | module id =>
      refine (checked (valid id (.head _))).bind fun _ after _ same => ?_
      subst same
      exact recorded_leads sound _

theorem load_leads (sound : rules.Sound own m) (owner : EnvironmentOwner)
    {prototype : PrototypeRef} (valid : ∀ value ∈ owner.values, rules.Valid m value)
    (prototype_valid : rules.ValidPrototype m prototype)
    : rules.Leads own (load owner prototype) m
        fun closure after => rules.Valid after (.closure closure) := by
  refine (find_leads sound owner valid).bind fun environment m₁ found table => ?_
  refine (Vm.instantiate_leads found.sound _ (found.later.prototype prototype_valid) ?_).lift
  rintro _ ⟨⟩
  exact table

end Environment

-----------------------------------------------------------------------------------------
-- Connections
-----------------------------------------------------------------------------------------

/-- Guards move between the connections and those that are out. -/
theorem Rules.Sound.changeConnections {left : List Guard} (sound : rules.Sound own m)
    (connections : ConnectionRegistry)
    (within : (left ++ ConnectionRegistry.guards connections).Subperm
      (own ++ ConnectionRegistry.guards m.connections))
    : rules.Passed m left { m with connections } := by
  refine sound.changeRegistries m.environments m.hooks.metamethods connections ?_
  classical
  refine List.subperm_ext_iff.mpr fun guard _ => ?_
  have bound := within.count_le guard
  simp only [Machine.registered, List.count_append] at bound ⊢
  change _ + (_ + List.count guard m.hooks.guards + _) ≤ _
  omega

/-- What a call of a value does from a machine on, as long as calls stay active. -/
def Rules.Runs (rules : Rules) (run : Value → Vm (List Value)) (m : Machine) : Prop :=
  ∀ ⦃own after callback⦄, rules.Sound own after → rules.Later m after
    → after.activeCalls = m.activeCalls → rules.Valid after callback
    → rules.Leads own (run callback) after
        fun results last => ∀ value ∈ results, rules.Valid last value

theorem Rules.Runs.later {run : Value → Vm (List Value)} {left : List Guard} {after : Machine}
    (runs : rules.Runs run m) (passed : rules.Passed m left after)
    : rules.Runs run after :=
  fun _ _ _ sound later active valid =>
    runs sound (passed.later.trans later) (active.trans passed.active) valid

namespace Connection

theorem register_leads (sound : rules.Sound own m) (signal : String) {callback : Value}
    (valid : rules.Valid m callback)
    : rules.Leads own (register signal callback) m fun _ _ => True := by
  have connect : rules.Leads own
      (do
        let guard ← Vm.hold callback
        modifyGet fun m =>
          (m.connections.size,
            { m with connections := m.connections.push { signal, callback := some guard } })
        : Action Nat)
      m fun _ _ => True := by
    refine (Vm.hold_tracks sound valid).lift.bind fun guard m₁ held _ => ?_
    refine .modifyGet (held.sound.changeConnections _ ?_) trivial
    have pushed := ConnectionRegistry.guards_push m₁.connections { signal, callback := some guard }
    exact ((pushed.append_left own).trans List.perm_middle).subperm
  unfold register
  split
  · exact connect
  · exact .fail sound (Rules.tolerates_refused _) (.refl _)

theorem setEnabled_leads (sound : rules.Sound own m) (index : Nat) (enabled : Bool)
    : rules.Leads own (setEnabled index enabled) m fun _ _ => True := by
  refine .modifyGet (sound.changeConnections _ ?_) trivial
  rw [ConnectionRegistry.guards_setEnabled]

theorem disconnect_leads (sound : rules.Sound own m) (index : Nat)
    : rules.Leads own (disconnect index) m fun _ _ => True := by
  have apart := ConnectionRegistry.guards_disconnect m.connections index
  refine .modifyGet ?_ trivial
  dsimp only
  split
  · rename_i guard found
    rw [found] at apart
    have out : rules.Passed m (guard :: own)
        { m with connections := ConnectionRegistry.disconnect m.connections index } := by
      refine sound.changeConnections _ ?_
      exact (List.perm_middle.symm.trans (apart.append_left own)).subperm
    exact out.trans out.sound.letGo
  · rename_i found
    rw [found] at apart
    exact sound.changeConnections _ (apart.append_left own).subperm

theorem callback_valid (sound : rules.Sound own m) {index : Nat} {callback : Value}
    (found : ConnectionRegistry.callback? m.connections index = some callback)
    : rules.Valid m callback := by
  obtain ⟨connection, held, found⟩ := Option.bind_eq_some_iff.mp found
  obtain ⟨guard, kept, found⟩ := Option.bind_eq_some_iff.mp found
  have listed : guard ∈ ConnectionRegistry.guards m.connections :=
    List.mem_filterMap.mpr ⟨connection, Array.mem_toList_iff.mpr (Array.mem_of_getElem? held), kept⟩
  split at found
  · cases found
    exact sound.registered (List.mem_append_right _ listed)
  · cases found

theorem fire_leads {run : Value → Vm (List Value)} (sound : rules.Sound own m)
    (runs : rules.Runs run m) (index : Nat)
    : rules.Leads own (fire run index) m fun _ _ => True := by
  refine .get ?_
  split
  · exact .pure sound trivial
  · rename_i callback found
    have ran := runs sound (.refl m) rfl (callback_valid sound found)
    exact ran.attempt.bind fun _ _ passed _ => .pure passed.sound trivial

theorem fireAll_leads {run : Value → Vm (List Value)} (sound : rules.Sound own m)
    (runs : rules.Runs run m) (indices : List Nat)
    : rules.Leads own (fireAll run indices) m fun _ _ => True := by
  induction indices generalizing m with
  | nil => exact .pure sound trivial
  | cons index rest ih =>
      refine (fire_leads sound runs index).bind fun ran m₁ fired _ => ?_
      refine (ih fired.sound (runs.later fired)).bind fun others m₂ more _ => ?_
      exact .pure more.sound trivial

theorem fireSignal_leads {run : Value → Vm (List Value)} (sound : rules.Sound own m)
    (runs : rules.Runs run m) (signal : String)
    : rules.Leads own (fireSignal run signal) m fun _ _ => True :=
  .get (fireAll_leads sound runs _)

end Connection

-----------------------------------------------------------------------------------------
-- Levels
-----------------------------------------------------------------------------------------

namespace Clearance

theorem level_leads (sound : rules.Sound own m) : rules.Leads own level m fun _ _ => True :=
  .modifyGet (sound.aside rfl rfl rfl rfl rfl rfl rfl rfl) trivial

theorem setLevel_leads (sound : rules.Sound own m) (level : Int)
    : rules.Leads own (setLevel level) m fun _ _ => True := by
  have change {record : Machine → IdentityRegistry}
      : rules.Leads own (modify fun m => { m with identities := record m } : Action Unit) m
          fun _ _ => True :=
    .modify (sound.aside rfl rfl rfl rfl rfl rfl rfl rfl) trivial
  unfold setLevel
  split
  · exact .fail sound (Rules.tolerates_refused _) (.refl _)
  · exact change

theorem isTrusted_leads (sound : rules.Sound own m)
    : rules.Leads own isTrusted m fun _ _ => True :=
  (level_leads sound).bind fun _ _ passed _ => .pure passed.sound trivial

theorem require_leads (sound : rules.Sound own m) (operation : String) (required : Nat)
    : rules.Leads own (require operation required) m fun _ _ => True := by
  refine (level_leads sound).lift.bind fun actual after seen _ => ?_
  split
  · exact .fail seen.sound (Rules.tolerates_refused _) (.refl _)
  · exact .pure seen.sound trivial

theorem requirePrivilege_leads (sound : rules.Sound own m) (operation : String)
    : rules.Leads own (requirePrivilege operation) m fun _ _ => True :=
  .get (require_leads sound operation _)

end Clearance
end HookMachine
