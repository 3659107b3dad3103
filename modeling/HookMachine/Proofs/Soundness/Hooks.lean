import HookMachine.Proofs.Hook.Entries
import HookMachine.Proofs.Soundness.Primitives

/-!
Hooking by the rules. A hook takes over the guards of what it needs and gives back those of the
hook that it replaces, so no slot is lost and none is given back twice.
-/

namespace HookMachine

variable {rules : Rules} {own : List Guard} {m : Machine}

-----------------------------------------------------------------------------------------
-- Hooks of closures
-----------------------------------------------------------------------------------------

theorem HookRegistry.mem_of_function? {registry : HookRegistry} {ref : ClosureRef}
    {hook : FunctionHook} (found : registry.function? ref = some hook)
    : (ref, hook) ∈ registry.functions :=
  (subperm_of_lookup found).subset (.head _)

namespace Rules

theorem Sound.copied (sound : rules.Sound own m) {ref : ClosureRef} {c : Closure}
    (found : m.heap.closures.get ref.handle = .ok c)
    : rules.Passed m own (m.copied c).2
      ∧ rules.Valid (m.copied c).2 (.closure (m.copied c).1) := by
  have good := sound.closures found
  have copied : rules.SoundClosure m { c with redirect := none, marked := false } :=
    { good with plain := rfl, redirect := by simp }
  refine ⟨sound.insertClosure copied rfl, .of_live rfl ?_⟩
  exact Arena.contains_iff.mpr ⟨_, Arena.get_insert_self _ _⟩

/-- The guards of a hook go to the registry, and those of the hook before it come out. -/
theorem Sound.insertFunction {ref : ClosureRef} {hook : FunctionHook} {replacement : Value}
    (sound : rules.Sound (hook.guards ++ own) m) (valid : rules.Valid m replacement)
    (target : hook.target.value = .closure ref)
    (live : m.heap.isLive (.closure ref) = true)
    : rules.Kept m
        ((m.hooks.function? ref).toList.flatMap FunctionHook.guards ++ own)
        (m.redirected ref (some replacement) (m.hooks.insertFunction ref hook)) := by
  refine sound.redirect ref (m.hooks.insertFunction ref hook).functions
    (by simpa using valid) ?_ ?_ (HookRegistry.nodup_insertFunction sound.single ref hook)
  · classical
    refine List.subperm_ext_iff.mpr fun guard _ => ?_
    have inserted := (m.hooks.guards_insertFunction ref hook).count_eq guard
    have erased := (m.hooks.guards_eraseFunction ref).count_le guard
    simp only [Machine.registered, List.count_append] at inserted erased ⊢
    change _ + _ + (_ + List.count guard (m.hooks.insertFunction ref hook).guards + _) ≤ _
    omega
  · intro entry member
    rcases List.mem_append.mp member with old | new
    · exact .inl (List.mem_filter.mp old).1
    · rw [List.mem_singleton.mp new]
      exact .inr ⟨target, live⟩

/-- The guards of a hook come out of the registry. -/
theorem Sound.eraseFunction {ref : ClosureRef} {hook : FunctionHook}
    (sound : rules.Sound own m) (entry : m.hooks.function? ref = some hook)
    : rules.Kept m (hook.guards ++ own)
        (m.redirected ref none (m.hooks.eraseFunction ref)) := by
  refine sound.redirect ref (m.hooks.eraseFunction ref).functions
    (by simp) ?_ (fun entry member => .inl (List.mem_filter.mp member).1)
    (sound.single.sublist (List.filter_sublist.map _))
  classical
  refine List.subperm_ext_iff.mpr fun guard _ => ?_
  have erased := (m.hooks.guards_eraseFunction ref).count_le guard
  simp only [Machine.registered, entry, Option.toList_some, List.flatMap_cons, List.flatMap_nil,
    List.append_nil, List.count_append] at erased ⊢
  change _ + _ + (_ + List.count guard (m.hooks.eraseFunction ref).guards + _) ≤ _
  omega

/-- Hooking a closure keeps the machine sound: the guards of its hook go to the registry, and
those of the hook that it had before are given back.
-/
theorem Sound.hooked (sound : rules.Sound own m) {ref : ClosureRef} {c : Closure}
    {replacement : Value} (found : m.heap.closures.get ref.handle = .ok c)
    (valid : rules.Valid m replacement)
    : rules.Kept m own (m.hooked ref c replacement)
      ∧ rules.Valid (m.hooked ref c replacement) (.closure (m.copied c).1) := by
  obtain ⟨copied, copy_valid⟩ := sound.copied found
  have live : m.heap.isLive (.closure ref) = true := Arena.contains_iff.mpr ⟨c, found⟩
  have target := copied.sound.hold (.closure ref) (.of_live rfl (copied.later.live live))
  have former := target.sound.hold _ (target.later.valid copy_valid)
  have later := (copied.trans target).later.trans former.later
  have guarded := former.sound.hold _ (later.valid valid)
  have passed : rules.Passed m ((m.guarded ref c replacement).1.guards ++ own)
      (m.guarded ref c replacement).2 :=
    (((copied.trans target).trans former).trans guarded).forget
      ((List.reverse_perm [_, _, _]).append_right own).subperm
  have inserted :=
    passed.sound.insertFunction (passed.later.valid valid) rfl (passed.later.live live)
  have settled := inserted.trans (inserted.sound.letGoAll _).toKept
  refine ⟨passed.toKept.trans settled, ?_⟩
  exact (((target.trans former).trans guarded).later.trans settled.later).valid copy_valid

theorem Sound.unhooked (sound : rules.Sound own m) {ref : ClosureRef} {hook : FunctionHook}
    (entry : m.hooks.function? ref = some hook)
    : rules.Kept m own (m.unhooked ref hook) := by
  have erased := sound.eraseFunction entry
  exact erased.trans (erased.sound.letGoAll _).toKept

theorem Sound.abandoned (sound : rules.Sound own m) {ref : ClosureRef} {c : Closure}
    (found : m.heap.closures.get ref.handle = .ok c)
    : rules.Passed m own (m.abandoned ref c) := by
  obtain ⟨copied, copy_valid⟩ := sound.copied found
  have live : m.heap.isLive (.closure ref) = true := Arena.contains_iff.mpr ⟨c, found⟩
  have target := copied.sound.hold (.closure ref) (.of_live rfl (copied.later.live live))
  have former := target.sound.hold _ (target.later.valid copy_valid)
  have passed := (copied.trans target).trans former
  exact passed.trans (passed.sound.letGoAll [_, _])

/-- The guards of a metamethod's hook come out of the registry. -/
theorem Sound.eraseMetamethod {slot : MetamethodSlot} {hook : MetamethodHook}
    (sound : rules.Sound own m) (entry : m.hooks.metamethod? slot = some hook)
    : rules.Passed m (hook.guards ++ own)
        { m with hooks := m.hooks.eraseMetamethod slot } := by
  refine sound.changeRegistries m.environments (m.hooks.eraseMetamethod slot).metamethods
    m.connections ?_
  classical
  refine List.subperm_ext_iff.mpr fun guard _ => ?_
  have erased := (m.hooks.guards_eraseMetamethod slot).count_le guard
  simp only [Machine.registered, entry, Option.toList_some, List.flatMap_cons, List.flatMap_nil,
    List.append_nil, List.count_append] at erased ⊢
  change _ + _ + (_ + List.count guard (m.hooks.eraseMetamethod slot).guards + _) ≤ _
  omega

/-- The guards of a metamethod's hook go to the registry. -/
theorem Sound.insertMetamethod {slot : MetamethodSlot} {hook : MetamethodHook}
    (sound : rules.Sound (hook.guards ++ own) m)
    : rules.Passed m own
        { m with hooks := m.hooks.insertMetamethod slot hook } := by
  refine sound.changeRegistries m.environments (m.hooks.insertMetamethod slot hook).metamethods
    m.connections ?_
  classical
  refine List.subperm_ext_iff.mpr fun guard _ => ?_
  have inserted :=
    (m.hooks.guards_insertMetamethod slot hook).count_eq guard
  have erased := (m.hooks.guards_eraseMetamethod slot).count_le guard
  simp only [Machine.registered, List.count_append] at inserted erased ⊢
  change _ + (_ + List.count guard (m.hooks.insertMetamethod slot hook).guards + _) ≤ _
  omega

end Rules

namespace Hook

theorem install_leads (sound : rules.Sound own m) {target replacement : Value}
    (target_valid : rules.Valid m target) (valid : rules.Valid m replacement)
    : rules.Leads own (install target replacement) m
        fun copy after => ∀ ref, copy = some ref → rules.Valid after (.closure ref) := by
  rcases install_cases sound.minted target replacement with
    ⟨ref, c, rfl, found, _, ran⟩ | ⟨ref, c, rfl, found, foreign, ran⟩
      | ⟨ref, fault, rfl, missing, ran⟩ | ⟨refusal, ran⟩ | ran
  · obtain ⟨kept, copy_valid⟩ := sound.hooked found valid
    refine .ok ran ⟨kept, fun _ => ⟨_, .installed (.start m) sound.minted found ran⟩⟩ ?_
    rintro _ ⟨⟩
    exact copy_valid
  · refine .failed ran (sound.abandoned found) fun careful _ => ?_
    simp [sound.owns valid careful] at foreign
  · refine .failed ran (.refl sound) fun careful _ => ?_
    obtain ⟨c, found⟩ := Arena.contains_iff.mp (target_valid careful _ rfl)
    exact absurd found (missing c)
  · exact .failed ran (.refl sound) (Rules.tolerates_refused refusal)
  · exact .ok ran (.refl sound) (by simp)

/-- Unhooking a closure never fails: its hook kept the closure alive. -/
theorem restore_leads (sound : rules.Sound own m) (target : Value)
    : rules.Leads own (restore target) m fun _ _ => True := by
  cases target with
  | closure ref =>
      cases entry : m.hooks.function? ref with
      | none => exact .ok (restore_of_none entry) (.refl sound) trivial
      | some hook =>
          obtain ⟨_, live⟩ := sound.targets _ (HookRegistry.mem_of_function? entry)
          obtain ⟨c, found⟩ := Arena.contains_iff.mp live
          have ran := restore_of_get entry found
          refine .ok ran ⟨sound.unhooked entry, fun _ => ?_⟩ trivial
          exact ⟨_, .restored (.start m) ran⟩
  | _ => exact .pure sound trivial

-----------------------------------------------------------------------------------------
-- Hooks of metamethods
-----------------------------------------------------------------------------------------

theorem checkCallable_leads (sound : rules.Sound own m) (value : Value) (subject : String)
    : rules.Leads own (checkCallable value subject) m fun _ after => m = after := by
  unfold checkCallable
  split
  · exact .pure sound rfl
  · exact .fail sound (Rules.tolerates_refused _) (.refl _)

theorem writeUnprotected_leads (sound : rules.Sound own m) {ref : TableRef} {key value : Value}
    (table_valid : rules.Valid m (.table ref)) (key_valid : rules.Valid m key)
    (valid : rules.Valid m value)
    : rules.Leads own (writeUnprotected ref key value) m fun _ _ => True := by
  refine (Vm.table_leads sound table_valid).bind fun t after _ read => ?_
  obtain ⟨rfl, _⟩ := read
  refine (Vm.setReadOnly_leads sound false table_valid).bind fun _ m₁ lifted _ => ?_
  have write := Vm.rawSet_leads lifted.sound (lifted.later.valid table_valid)
    (lifted.later.valid key_valid) (lifted.later.valid valid)
  refine write.attempt.bind fun written m₂ wrote tolerated => ?_
  have still := wrote.later.valid (lifted.later.valid table_valid)
  refine (Vm.setReadOnly_leads wrote.sound t.readOnly still).bind fun _ m₃ back _ => ?_
  cases written with
  | ok => exact .pure back.sound trivial
  | error fault => exact .fail back.sound tolerated (.refl _)

theorem takePrevious_tracks (sound : rules.Sound own m) (slot : MetamethodSlot)
    {existing : Value} (valid : rules.Valid m existing)
    : rules.Tracks (takePrevious slot existing) m (fun previous => previous :: own) own
        fun _ _ => True := by
  refine .get ?_
  split
  · rename_i hook entry
    have erased
        : rules.Passed m ([hook.former, hook.replacement] ++ hook.previous :: own)
            { m with hooks := m.hooks.eraseMetamethod slot } :=
      (sound.eraseMetamethod entry).forget
        ((List.perm_append_comm : List.Perm ([_, _] ++ [_]) _).append_right own).subperm
    refine .bind (.step erased) fun _ m₁ passed _ => ?_
    refine .bind (.step (passed.sound.letGoAll [_, _])) fun _ m₂ passed _ => ?_
    exact .ok rfl (.refl passed.sound) trivial
  · exact (Vm.hold_tracks sound valid).lift.mono fun _ _ _ _ => trivial

theorem installMetamethod_leads (sound : rules.Sound own m) {object replacement : Value}
    (object_valid : rules.Valid m object) (name : String)
    (valid : rules.Valid m replacement)
    : rules.Leads own (installMetamethod object name replacement) m
        fun former after => rules.Valid after former := by
  refine (checkCallable_leads sound replacement _).bind fun _ after _ same => ?_
  subst same
  refine (Vm.metatable_leads sound object_valid).lift.bind fun mt after _ read => ?_
  obtain ⟨rfl, mt_valid⟩ := read
  cases mt with
  | none => exact .fail sound (Rules.tolerates_refused _) (.refl _)
  | some mt =>
      have mt_valid := mt_valid mt rfl
      refine (Vm.rawGet_leads sound _ mt_valid).lift.bind fun existing after _ read => ?_
      obtain ⟨rfl, existing_valid⟩ := read
      split
      · exact .fail sound (Rules.tolerates_refused _) (.refl _)
      refine (Vm.clone_leads sound existing_valid).lift.bind fun copy m₁ copied copy_valid => ?_
      have former_valid : rules.Valid m₁ (copy.getD existing) := by
        cases copy with
        | none => exact copied.later.valid existing_valid
        | some value => exact copy_valid value rfl
      have taken := takePrevious_tracks copied.sound (mt, name) (copied.later.valid existing_valid)
      refine taken.bind fun previous m₂ took _ => ?_
      have former_held := Vm.hold_tracks took.sound (took.later.valid former_valid)
      refine (former_held.lift.onHalt fun sound => sound.letGo).bind fun former m₃ kept held => ?_
      obtain ⟨-, former_valid⟩ := held
      have later := (copied.later.trans took.later).trans kept.later
      have replacement_held := Vm.hold_tracks kept.sound (later.valid valid)
      refine (replacement_held.lift.onHalt fun sound => sound.letGoAll [_, _]).bind
        fun replacementGuard m₄ guarded _ => ?_
      have later := later.trans guarded.later
      have sound : rules.Sound ([previous, former, replacementGuard] ++ own) m₄ :=
        guarded.sound.forget ((List.reverse_perm [_, _, _]).append_right own).subperm
      have write :=
        writeUnprotected_leads sound (later.valid mt_valid) (Rules.valid_string name)
          (later.valid valid)
      refine (write.lift.onHalt fun sound => sound.letGoAll _).bind fun _ m₅ wrote _ => ?_
      refine .bind (.step (Rules.Sound.insertMetamethod wrote.sound)) fun _ m₆ done same => ?_
      refine .pure done.sound ?_
      exact ((guarded.later.trans wrote.later).trans done.later).valid former_valid

/-- What a metamethod slot held before its first hook is put back. -/
theorem restoreMetamethod_leads (sound : rules.Sound own m) {object : Value}
    (valid : rules.Valid m object) (name : String)
    : rules.Leads own (restoreMetamethod object name) m fun _ _ => True := by
  refine (Vm.metatable_leads sound valid).lift.bind fun mt after _ read => ?_
  obtain ⟨rfl, mt_valid⟩ := read
  cases mt with
  | none => exact .pure sound trivial
  | some mt =>
      refine .get ?_
      split
      · exact .pure sound trivial
      · rename_i hook entry
        have listed : hook.previous ∈ m.registered := by
          have among := (m.hooks.guards_eraseMetamethod (mt, name)).subset
          refine List.mem_append_left _ (List.mem_append_right _ (among ?_))
          simp [entry, MetamethodHook.guards]
        refine .bind (.step (sound.eraseMetamethod entry)) fun _ m₁ erased _ => ?_
        have write :=
          writeUnprotected_leads erased.sound (erased.later.valid (mt_valid mt rfl))
            (Rules.valid_string name) (erased.later.valid (sound.registered listed))
        refine (write.lift.onHalt fun sound => sound.letGoAll _).bind fun _ m₂ wrote _ => ?_
        refine .bind (.step (wrote.sound.letGoAll _)) fun _ m₃ done _ => ?_
        exact .pure done.sound trivial

end Hook
end HookMachine
