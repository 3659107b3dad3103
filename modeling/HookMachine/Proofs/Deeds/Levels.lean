import HookMachine.Proofs.Deeds.Interleaving

/-!
Levels. The level that a context holds is the last that it was given, or else the default, however the
operations of other contexts come in between.
-/

namespace HookMachine

-----------------------------------------------------------------------------------------
-- The registry
-----------------------------------------------------------------------------------------

namespace IdentityRegistry

/-- A context that is left out of a list is not found, any other as before, by induction over it. -/
theorem lookup_filter_ne (levels : List (ContextRef × Nat)) (context other : ContextRef)
    : (levels.filter fun entry => entry.1 ≠ context).lookup other
      = if other = context then none else levels.lookup other := by
  induction levels with
  | nil => simp
  | cons entry rest ih =>
      obtain ⟨owner, level⟩ := entry
      by_cases dropped : owner = context
      · rw [List.filter_cons_of_neg (by simp [dropped]), ih]
        split
        · rfl
        · rename_i distinct
          have distinct : (other == owner) = false := by simpa [dropped] using distinct
          rw [List.lookup_cons, distinct]
      · rw [List.filter_cons_of_pos (by simp [dropped]), List.lookup_cons, List.lookup_cons, ih]
        by_cases found : other = owner
        · simp only [found, beq_self_eq_true, dropped, if_false]
        · have missed : (other == owner) = false := by simpa using found
          rw [missed]

theorem level_record (registry : IdentityRegistry) (context other : ContextRef) (level : Nat)
    : (registry.record context level).level other
      = if other = context then level else registry.level other := by
  unfold IdentityRegistry.level record
  rw [List.lookup_append, lookup_filter_ne]
  by_cases same : other = context
  · simp [same]
  · have distinct : (other == context) = false := by simpa using same
    simp [same, distinct, List.lookup_cons]

/-- Looking at a level changes no level. -/
theorem level_observe (registry : IdentityRegistry) (context other : ContextRef)
    : (registry.observe context).level other = registry.level other := by
  unfold observe
  split
  · rfl
  · rename_i missing
    rw [level_record]
    split
    · rename_i same
      simp [IdentityRegistry.level, same, missing]
    · rfl

end IdentityRegistry

-----------------------------------------------------------------------------------------
-- What contexts are given
-----------------------------------------------------------------------------------------

/-- The levels that a context is given by its own operations, in the order of a log. -/
inductive Settings (context : ContextRef) : List Point → List Int → Prop
  | nil : Settings context [] []
  | set {log levels point level} (before : Settings context log levels)
    (own : point.machine.context = context) (sets : point.Sets level)
    : Settings context (log ++ [point]) (levels ++ [level])
  | other {log levels point} (before : Settings context log levels)
    (aside : point.machine.context = context → ∀ level, ¬point.Sets level)
    : Settings context (log ++ [point]) levels

/-- The level of a context that was given these levels: the last of them, or else the default. -/
def Config.levelAfter (config : Config) (levels : List Int) : Nat :=
  (levels.getLast?.map Int.toNat).getD (min config.defaultLevel maxLevel)

/-- Every context holds the level that it was given last. -/
structure Machine.Leveled (config : Config) (log : List Point) (m : Machine) : Prop where
  same : m.config = config
  default : m.identities.defaultLevel = min config.defaultLevel maxLevel
  level : ∀ context, ∃ levels, Settings context log levels
    ∧ m.identities.level context = config.levelAfter levels

variable {config : Config} {log : List Point} {m after : Machine} {context : ContextRef}

theorem Point.Sets.range {point : Point} {level : Int} (sets : point.Sets level)
    : 0 ≤ level ∧ level ≤ maxLevel := by
  cases sets with
  | performs _ _ least most => exact ⟨least, most⟩
  | asks _ least most => exact ⟨least, most⟩

/-- No context is given a level out of range. -/
theorem Settings.range {levels : List Int} (settings : Settings context log levels)
    : ∀ level ∈ levels, 0 ≤ level ∧ level ≤ maxLevel := by
  induction settings with
  | nil => simp
  | set _ _ sets ih =>
      intro level member
      rcases List.mem_append.mp member with member | member
      · exact ih level member
      · exact List.mem_singleton.mp member ▸ sets.range
  | other _ _ ih => exact ih

theorem Settings.levelAfter_le {levels : List Int} (settings : Settings context log levels)
    : config.levelAfter levels ≤ maxLevel := by
  unfold Config.levelAfter
  cases last : levels.getLast? with
  | none => exact Nat.min_le_right _ _
  | some level =>
      have range := settings.range level (List.mem_of_getLast? last)
      change level.toNat ≤ maxLevel
      omega

/-- Nothing but setting a level changes that of any context. -/
theorem Scope.Change.level {s : Scope} (change : s.Change m after) (context : ContextRef)
    : after.identities.level context = m.identities.level context := by
  cases change with
  | beside beside => rw [beside.identities]
  | observed => exact m.identities.level_observe m.context context
  | _ => rfl

theorem Scope.Leads.level {s : Scope} (leads : s.Leads m after) (context : ContextRef)
    : after.identities.level context = m.identities.level context := by
  induction leads with
  | refl => rfl
  | tail _ change ih => exact (change.level context).trans ih

theorem Scope.Leads.defaultLevel {s : Scope} (leads : s.Leads m after)
    : after.identities.defaultLevel = m.identities.defaultLevel := by
  induction leads with
  | refl => rfl
  | tail _ change ih =>
      refine Eq.trans ?_ ih
      cases change with
      | beside beside => rw [beside.identities]
      | observed =>
          change (IdentityRegistry.observe _ _).defaultLevel = _
          unfold IdentityRegistry.observe
          split <;> rfl
      | _ => rfl

theorem Machine.identities_collect (m : Machine)
    : m.collect.2.identities = m.identities ∧ m.collect.2.config = m.config := by
  unfold collect
  split <;> exact ⟨rfl, rfl⟩

/-- From a point to the next the calling context is given the level that the point sets, and no other
context is given any.
-/
theorem Point.Moves.leveled {point : Point} (moves : point.Moves m)
    (leveled : point.machine.Leveled config log)
    : m.Leveled config (log ++ [point]) := by
  have unset (same : m.config = point.machine.config)
      (default : m.identities.defaultLevel = point.machine.identities.defaultLevel)
      (level : ∀ c, m.identities.level c = point.machine.identities.level c)
      (unset : ∀ level, ¬point.Sets level)
      : m.Leveled config (log ++ [point]) := by
    refine ⟨same.trans leveled.same, default.trans leveled.default, fun c => ?_⟩
    obtain ⟨levels, settings, held⟩ := leveled.level c
    exact ⟨levels, .other settings fun _ => unset, (level c).trans held⟩
  rcases moves with ⟨⟨outset, set, leads⟩, -⟩ | ⟨asked, rfl⟩
  · cases set with
    | plain none => exact unset leads.fixed.config leads.defaultLevel leads.level none
    | @set level sets =>
        refine ⟨leads.fixed.config.trans leveled.same, leads.defaultLevel.trans leveled.default,
          fun c => ?_⟩
        obtain ⟨levels, settings, held⟩ := leveled.level c
        have recorded := (leads.level c).trans
          (point.machine.identities.level_record point.machine.context c level.toNat)
        by_cases own : c = point.machine.context
        · refine ⟨levels ++ [level], .set settings own.symm sets, ?_⟩
          rw [recorded, if_pos own]
          simp [Config.levelAfter]
        · refine ⟨levels, .other settings fun same => absurd same.symm own, ?_⟩
          rw [recorded, if_neg own, held]
  · obtain ⟨identities, same⟩ := point.machine.identities_collect
    refine unset same (by rw [identities]) (fun c => by rw [identities]) fun level sets => ?_
    cases sets with
    | performs performs =>
        obtain ⟨n, -, passes⟩ := performs.passes
        unfold Passes at passes
        rw [asked] at passes
        exact passes
    | asks set =>
        rw [asked] at set
        cases set

-----------------------------------------------------------------------------------------
-- Interleavings
-----------------------------------------------------------------------------------------

namespace Machine.Interleaved

theorem leveled_create (heap : Nat) (config : Config)
    : (create heap config).Leveled config [] := by
  have begins : (bare heap config).Leveled config [] :=
    ⟨rfl, rfl, fun _ => ⟨[], .nil, rfl⟩⟩
  have leads := leads_create heap config
  refine ⟨leads.fixed.config.trans begins.same, leads.defaultLevel.trans begins.default, fun c => ?_⟩
  obtain ⟨levels, settings, held⟩ := begins.level c
  exact ⟨levels, settings, (leads.level c).trans held⟩

/-- At the end of every session each context holds the level that it was given last. -/
theorem leveled (life : Interleaved config log m) : m.Leveled config log :=
  life.holds (P := fun log m => m.Leveled config log) (leveled_create · config)
    (fun _ _ held => ⟨held.same, held.default, held.level⟩)
    fun _ _ _ held moves _ => moves.leveled held

/-- So it does at every point of every session. -/
theorem leveled_at (life : Interleaved config log m) {earlier later : List Point} {here : Point}
    (split : log = earlier ++ here :: later)
    : here.machine.Leveled config earlier :=
  life.holds_at (P := fun log m => m.Leveled config log) (leveled_create · config)
    (fun _ _ held => ⟨held.same, held.default, held.level⟩)
    (fun _ _ _ held moves _ => moves.leveled held) split

end Machine.Interleaved
end HookMachine
