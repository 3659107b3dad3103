import HookMachine.Proofs.Deeds.Permanence
import HookMachine.Proofs.Table.Fields

/-!
How environments are made. Each begins as an empty table, and all share one metatable, which is
protected: what is not found in an environment is looked up in the root globals, and what is written
stays. Making an environment leaves every table that was there before as it was.
-/

namespace HookMachine

variable {m middle after : Machine} {owner : EnvironmentOwner} {ref e mt : TableRef} {t : Table}

-----------------------------------------------------------------------------------------
-- Environments on record
-----------------------------------------------------------------------------------------

/-- The table that a guard holds. -/
def Guard.table? (guard : Guard) : Option TableRef :=
  match guard.value with
  | .table ref => some ref
  | _ => none

theorem Guard.table?_eq_some {guard : Guard}
    : guard.table? = some ref ↔ guard.value = .table ref := by
  unfold table?
  cases guard.value <;> simp

namespace EnvironmentCache

variable {cache : EnvironmentCache} {guard : Guard}

/-- The tables of all environments on record. -/
def overlays (cache : EnvironmentCache) : List TableRef :=
  (cache.shared.toList ++ cache.scripts.map (·.2) ++ cache.modules.map (·.2)).filterMap
    Guard.table?

theorem exists_guard_of_mem_overlays (member : e ∈ cache.overlays)
    : ∃ guard ∈ cache.guards, guard.value = .table e := by
  obtain ⟨guard, listed, holds⟩ := List.mem_filterMap.mp member
  refine ⟨guard, ?_, Guard.table?_eq_some.mp holds⟩
  unfold guards
  simp only [List.mem_append] at listed ⊢
  tauto

theorem mem_overlays_of_find? (found : cache.find? owner = some guard)
    (holds : guard.value = .table e)
    : e ∈ cache.overlays := by
  refine List.mem_filterMap.mpr ⟨guard, ?_, Guard.table?_eq_some.mpr holds⟩
  cases owner with
  | runtime =>
      change cache.shared = some guard at found
      simp [found]
  | script id | module id =>
      obtain ⟨entry, listed, rfl⟩ := Option.map_eq_some_iff.mp found
      have member := List.mem_of_find?_eq_some listed
      simp only [List.mem_append, List.mem_map]
      first
        | exact .inl (.inr ⟨entry, member, rfl⟩)
        | exact .inr ⟨entry, member, rfl⟩

/-- One more environment comes on record. -/
theorem mem_overlays_insert (missing : cache.find? owner = none) (holds : guard.value = .table ref)
    : e ∈ (cache.insert guard owner).overlays ↔ e = ref ∨ e ∈ cache.overlays := by
  have alone : guard.table? = some ref := Guard.table?_eq_some.mpr holds
  cases owner with
  | runtime =>
      change cache.shared = none at missing
      simp [overlays, insert, missing, alone]
  | script id | module id =>
      simp only [overlays, insert, List.map_append, List.map_cons, List.map_nil,
        List.filterMap_append, List.filterMap_cons, List.filterMap_nil, alone, List.mem_append,
        List.mem_singleton]
      tauto

end EnvironmentCache

theorem Machine.Denotes.mem_overlays (denotes : m.Denotes owner e)
    : e ∈ m.environments.overlays := by
  obtain ⟨guard, found, holds⟩ := denotes
  exact EnvironmentCache.mem_overlays_of_find? found holds

/-- What a lookup comes to is on record. -/
theorem Environment.mem_overlays_of_find (ran : find owner m = .ok e after)
    : e ∈ after.environments.overlays := by
  rcases (find_cases ran).2 with ⟨rfl, denotes⟩ | makes
  · exact denotes.mem_overlays
  · obtain ⟨guard, fallback, holds, same⟩ := makes.recorded
    have missing : { m.environments with fallback }.find? owner = none := by
      cases owner <;> exact makes.missing
    rw [same]
    exact (EnvironmentCache.mem_overlays_insert missing holds).mpr (.inl rfl)

-----------------------------------------------------------------------------------------
-- Environments as they are made
-----------------------------------------------------------------------------------------

/-- A metatable that sends what is not found on to the root, and nothing that is written. -/
structure Table.ReadsFrom (t : Table) (root : TableRef) : Prop where
  index : t.field? "__index" = some (.table root)
  newindex : t.field? "__newindex" = none
  readOnly : t.readOnly = true

/-- The metatable of all environments is made. -/
def Machine.Fallback (m : Machine) (mt : TableRef) : Prop :=
  ∃ guard, m.environments.fallback = some guard ∧ guard.value = .table mt

/-- The root has no metatable, and environments have theirs, as they were made. -/
structure Machine.Layered (m : Machine) : Prop where
  minted : m.heap.tables.heap = m.heap.id
  root : ∃ t, m.heap.tables.get m.globals.handle = .ok t ∧ t.metatable = none
  fallback {guard} : m.environments.fallback = some guard
    → ∃ mt t, guard.value = .table mt ∧ m.heap.tables.get mt.handle = .ok t ∧ t.ReadsFrom m.globals
  overlay {e : TableRef} : e ∈ m.environments.overlays
    → e ≠ m.globals
      ∧ ∃ mt t, m.Fallback mt ∧ m.heap.tables.get e.handle = .ok t ∧ t.metatable = some mt

/-- Tables come, and those that were there stay as they were. -/
structure Machine.Adds (m after : Machine) : Prop where
  tables {handle t} : m.heap.tables.get handle = .ok t → after.heap.tables.get handle = .ok t
  minted : after.heap.tables.heap = m.heap.tables.heap
  heap : after.heap.id = m.heap.id
  globals : after.globals = m.globals

namespace Machine.Adds

theorem refl (m : Machine) : m.Adds m :=
  ⟨id, rfl, rfl, rfl⟩

theorem trans (first : m.Adds middle) (second : middle.Adds after) : m.Adds after where
  tables found := second.tables (first.tables found)
  minted := second.minted.trans first.minted
  heap := second.heap.trans first.heap
  globals := second.globals.trans first.globals

theorem insert (adds : m.Adds middle)
    : m.Adds { middle with heap.tables := (middle.heap.tables.insert {}).2 } where
  tables found := Arena.get_insert_of_get {} (adds.tables found)
  minted := (Arena.heap_insert _ _).trans adds.minted
  heap := adds.heap
  globals := adds.globals

/-- A table that came is changed. -/
theorem modify (adds : m.Adds middle) (fresh : m.heap.isLive (.table ref) = false)
    (change : Table → Table)
    : m.Adds { middle with heap.tables := middle.heap.tables.modify ref.handle change } where
  tables {handle t} found := by
    refine Arena.get_modify.mpr ⟨t, adds.tables found, ?_⟩
    rw [if_neg]
    rintro rfl
    exact Bool.false_ne_true (fresh.symm.trans (Arena.contains_iff.mpr ⟨t, found⟩))
  minted := (Arena.heap_modify ..).trans adds.minted
  heap := adds.heap
  globals := adds.globals

theorem live (adds : m.Adds after) (there : m.heap.isLive (.table ref) = true)
    : after.heap.isLive (.table ref) = true := by
  obtain ⟨t, found⟩ := Arena.contains_iff.mp there
  exact Arena.contains_iff.mpr ⟨t, adds.tables found⟩

end Machine.Adds

theorem Machine.Layered.owns_globals (layered : m.Layered)
    : m.heap.owns (.table m.globals) = true := by
  obtain ⟨t, found, -⟩ := layered.root
  exact decide_eq_true ((Arena.heap_of_get found).trans layered.minted)

-----------------------------------------------------------------------------------------
-- Making an environment
-----------------------------------------------------------------------------------------

namespace Environment

/-- A table that has just been made is new, empty and belongs to the heap. -/
theorem newTable_eq (minted : m.heap.tables.heap = m.heap.id)
    : ∃ (ref : TableRef) (after : Machine), Vm.newTable m = .ok ref after
        ∧ after = { m with heap.tables := (m.heap.tables.insert {}).2 }
        ∧ m.heap.isLive (.table ref) = false
        ∧ after.heap.tables.get ref.handle = .ok {}
        ∧ after.heap.owns (.table ref) = true := by
  refine ⟨⟨(m.heap.tables.insert {}).1⟩, _, rfl, rfl, ?_, Arena.get_insert_self .., ?_⟩
  · cases there : m.heap.isLive (.table ⟨(m.heap.tables.insert {}).1⟩) with
    | false => rfl
    | true =>
        obtain ⟨t, found⟩ := Arena.contains_iff.mp there
        exact absurd found (Arena.get_insert_fresh m.heap.tables {} t)
  · have held := Arena.heap_of_get (Arena.get_insert_self m.heap.tables {})
    rw [Arena.heap_insert] at held
    exact decide_eq_true (held.trans minted)

theorem tableOf_of_holds {guard : Guard} (holds : guard.value = .table ref)
    : tableOf guard m = .ok ref m := by
  unfold tableOf
  rw [holds]
  rfl

/-- The metatable of environments is there after it was asked for. -/
structure Founds (m : Machine) (mt : TableRef) (after : Machine) : Prop where
  adds : m.Adds after
  known : ∃ guard, guard.value = .table mt
    ∧ after.environments = { m.environments with fallback := some guard }
  kept {guard} : m.environments.fallback = some guard → after.environments.fallback = some guard
  reads : ∃ t, after.heap.tables.get mt.handle = .ok t ∧ t.ReadsFrom m.globals

theorem reads_shut (root : TableRef)
    : { ({} : Table).set (.string "__index") (.table root) with readOnly := true }.ReadsFrom root := by
  refine ⟨rfl, ?_, rfl⟩
  have other : Value.string "__newindex" ≠ .string "__index" := by simp
  exact Table.get?_set_other other {} (.table root)

/-- The metatable of all environments is found, or made. -/
theorem fallback_founds (layered : m.Layered)
    : ∃ mt after, fallback m = .ok mt after ∧ Founds m mt after := by
  unfold fallback
  rw [Run.bind_get]
  rcases missing : m.environments.fallback with _ | guard
  case some =>
    obtain ⟨mt, t, holds, found, reads⟩ := layered.fallback missing
    refine ⟨mt, m, tableOf_of_holds holds, .refl m, ⟨guard, holds, ?_⟩, id, t, found, reads⟩
    rw [← missing]
  case none =>
    obtain ⟨mt, m₁, made, rfl, fresh, empty, owned⟩ := newTable_eq layered.minted
    generalize grown : { m with heap.tables := (m.heap.tables.insert {}).2 } = m₁ at *
    have adds₁ : m.Adds m₁ := grown ▸ (Machine.Adds.refl m).insert
    let guard := (m₁.hold (.table mt)).1
    let m₂ := (m₁.hold (.table mt)).2
    have held : Vm.hold (.table mt) m₁ = .ok guard m₂ := Vm.hold_of_owns owned
    let named (t : Table) : Table := t.set (.string "__index") (.table m₂.globals)
    let m₃ : Machine := { m₂ with heap.tables := m₂.heap.tables.modify mt.handle named }
    have rooted : m₂.heap.owns (.table m₂.globals) = true := by
      change m₁.heap.owns (.table m₁.globals) = true
      rw [← grown]
      exact layered.owns_globals
    have empty₂ : m₂.heap.tables.get mt.handle = .ok {} := empty
    have set : Vm.rawSet mt (.string "__index") (.table m₂.globals) m₂ = .ok () m₃ := by
      refine (Run.bind_ok (rfl : Vm.checkKey _ m₂ = .ok () m₂)).trans ?_
      refine (Run.bind_ok (Vm.checkOwner_of_owns rooted)).trans ?_
      refine (Run.bind_ok (Vm.table_of_get empty₂)).trans ?_
      rw [if_neg Bool.false_ne_true]
      exact Run.bind_ok (Vm.table_of_get empty₂)
    have written : m₃.heap.tables.get mt.handle
        = .ok (({} : Table).set (.string "__index") (.table m₂.globals)) :=
      Arena.get_modify.mpr ⟨_, empty, (if_pos rfl).symm⟩
    let protected_ (t : Table) : Table := { t with readOnly := true }
    let m₄ : Machine := { m₃ with heap.tables := m₃.heap.tables.modify mt.handle protected_ }
    have shut : Vm.setReadOnly mt true m₃ = .ok () m₄ := Run.bind_ok (Vm.table_of_get written)
    have both : Run.onHalt (do
        Vm.rawSet mt (.string "__index") (.table m₂.globals)
        Vm.setReadOnly mt true : Action Unit) (·.letGo guard) m₂ = .ok () m₄ :=
      Run.onHalt_ok ((Run.bind_ok (Run.lift_ok set)).trans (Run.lift_ok shut))
    let m₅ : Machine := { m₄ with environments.fallback := some guard }
    refine ⟨mt, m₅, ?_, ?_, ⟨guard, rfl, ?_⟩, fun other => ?_, ?_⟩
    · refine (Run.bind_ok (Run.lift_ok made)).trans ?_
      refine (Run.bind_ok (Run.lift_ok held)).trans ?_
      exact (Run.bind_get ..).trans (Run.bind_ok both)
    · have adds₂ : m.Adds m₂ := ⟨adds₁.tables, adds₁.minted, adds₁.heap, adds₁.globals⟩
      have adds₄ := (adds₂.modify fresh named).modify fresh protected_
      exact ⟨adds₄.tables, adds₄.minted, adds₄.heap, adds₄.globals⟩
    · change { m₁.environments with fallback := some guard } = _
      rw [← grown]
    · cases missing.symm.trans other
    · refine ⟨_, Arena.get_modify.mpr ⟨_, written, (if_pos rfl).symm⟩, ?_⟩
      have globals : m₂.globals = m.globals := adds₁.globals
      rw [globals]
      exact reads_shut m.globals

/-- A new environment is an empty table with the metatable that all share. -/
theorem create_founds (layered : m.Layered)
    : ∃ guard e mt after, create m = .ok guard after ∧ guard.value = .table e ∧ Founds m mt after
        ∧ m.heap.isLive (.table e) = false
        ∧ after.heap.tables.get e.handle = .ok { metatable := some mt } := by
  obtain ⟨mt, m₁, based, founds⟩ := fallback_founds layered
  have minted : m₁.heap.tables.heap = m₁.heap.id :=
    founds.adds.minted.trans (layered.minted.trans founds.adds.heap.symm)
  obtain ⟨e, m₂, made, grown, fresh, empty, owned⟩ := newTable_eq minted
  have adds₂ : m₁.Adds m₂ := grown ▸ (Machine.Adds.refl m₁).insert
  have same : m₂.environments = m₁.environments := grown ▸ rfl
  replace fresh : m.heap.isLive (.table e) = false := by
    by_contra there
    have there : m.heap.isLive (.table e) = true := by simpa using there
    exact Bool.false_ne_true (fresh.symm.trans (founds.adds.live there))
  let guard := (m₂.hold (.table e)).1
  let m₃ := (m₂.hold (.table e)).2
  have held : Vm.hold (.table e) m₂ = .ok guard m₃ := Vm.hold_of_owns owned
  let layer (t : Table) : Table := { t with metatable := some mt }
  let m₄ : Machine := { m₃ with heap.tables := m₃.heap.tables.modify e.handle layer }
  have empty₃ : m₃.heap.tables.get e.handle = .ok {} := empty
  obtain ⟨shared, shut, reads⟩ := founds.reads
  have attached : Vm.setMetatable e (some mt) m₃ = .ok () m₄ := by
    have there : m₃.heap.tables.get mt.handle = .ok shared := adds₂.tables shut
    refine (Run.bind_ok (Vm.table_of_get there)).trans ?_
    exact Run.bind_ok (Vm.table_of_get empty₃)
  have adds₃ : m.Adds m₃ := by
    have adds := founds.adds.trans adds₂
    exact ⟨adds.tables, adds.minted, adds.heap, adds.globals⟩
  have known : m₄.environments = m₁.environments := same
  refine ⟨guard, e, mt, m₄, ?_, rfl, ⟨adds₃.modify fresh layer, ?_, ?_, ?_⟩, fresh, ?_⟩
  · refine (Run.bind_ok based).trans ?_
    refine (Run.bind_ok (Run.lift_ok made)).trans ?_
    refine (Run.bind_ok (Run.lift_ok held)).trans ?_
    exact Run.bind_ok (Run.onHalt_ok (Run.lift_ok attached))
  · obtain ⟨base, holds, known⟩ := founds.known
    exact ⟨base, holds, same.trans known⟩
  · intro base there
    rw [known]
    exact founds.kept there
  · refine ⟨_, Arena.get_modify.mpr ⟨shared, adds₂.tables shut, rfl⟩, ?_⟩
    split
    · exact ⟨reads.index, reads.newindex, reads.readOnly⟩
    · exact reads
  · exact Arena.get_modify.mpr ⟨_, empty₃, (if_pos rfl).symm⟩

/-- An environment is made for an owner and put on record. -/
structure Brings (m : Machine) (owner : EnvironmentOwner) (e : TableRef) (after : Machine)
    : Prop where
  adds : m.Adds after
  fresh : m.heap.isLive (.table e) = false
  base : ∃ mt, after.Fallback mt ∧ (∃ t, after.heap.tables.get mt.handle = .ok t
    ∧ t.ReadsFrom m.globals) ∧ after.heap.tables.get e.handle = .ok { metatable := some mt }
  kept {guard} : m.environments.fallback = some guard → after.environments.fallback = some guard
  overlays {other : TableRef}
    : other ∈ after.environments.overlays ↔ other = e ∨ other ∈ m.environments.overlays

/-- A lookup leaves the machine as it was, or makes an environment. -/
theorem find_brings (layered : m.Layered) (owner : EnvironmentOwner)
    : (find owner m).last = m
      ∨ ∃ e after, find owner m = .ok e after ∧ Brings m owner e after := by
  have checked {id : Value} (owned : m.heap.owns id = true) (owner : EnvironmentOwner)
      : (do (Vm.checkOwner id : Vm Unit); recorded owner : Action TableRef) m = recorded owner m :=
    Run.bind_ok (Run.lift_ok (Vm.checkOwner_of_owns owned))
  have foreign {id : Value} (foreign : m.heap.owns id = false) (owner : EnvironmentOwner)
      : ((do (Vm.checkOwner id : Vm Unit); recorded owner : Action TableRef) m).last = m := by
    rw [Run.bind_error (Run.lift_error (Vm.checkOwner_of_foreign foreign))]
    rfl
  have looked : (find owner m).last = m ∨ find owner m = recorded owner m := by
    cases owner with
    | runtime => exact .inr rfl
    | script id | module id =>
        cases owned : m.heap.owns id with
        | true => exact .inr (checked owned _)
        | false => exact .inl (foreign owned _)
  rcases looked with same | looked
  · exact .inl same
  rw [looked]
  unfold recorded
  rw [Run.bind_get]
  rcases missing : m.environments.find? owner with _ | guard
  case some =>
    left
    change (tableOf guard m).last = m
    unfold tableOf
    cases guard.value <;> rfl
  case none =>
    right
    obtain ⟨guard, e, mt, middle, made, holds, founds, fresh, fields⟩ := create_founds layered
    obtain ⟨base, shared, known⟩ := founds.known
    let after : Machine :=
      { middle with environments := middle.environments.insert guard owner }
    have unfound : middle.environments.find? owner = none := by
      rw [known]
      cases owner <;> exact missing
    have entered : m.Adds after :=
      ⟨founds.adds.tables, founds.adds.minted, founds.adds.heap, founds.adds.globals⟩
    have fallback : after.environments.fallback = middle.environments.fallback := by
      change (middle.environments.insert guard owner).fallback = _
      cases owner <;> rfl
    refine ⟨e, after, ?_, entered, fresh, ⟨mt, ⟨base, ?_, shared⟩, founds.reads, fields⟩,
      fun there => fallback.trans (founds.kept there), ?_⟩
    · refine (Run.bind_ok made).trans ?_
      exact (Run.bind_ok rfl).trans (tableOf_of_holds holds)
    · rw [fallback, known]
    · intro other
      refine (EnvironmentCache.mem_overlays_insert unfound holds).trans (or_congr_right ?_)
      rw [known]
      rfl

end Environment

namespace Machine.Layered

variable (layered : m.Layered)

include layered

theorem live_globals : m.heap.isLive (.table m.globals) = true := by
  obtain ⟨t, found, -⟩ := layered.root
  exact Arena.contains_iff.mpr ⟨t, found⟩

theorem live_overlay (member : e ∈ m.environments.overlays) : m.heap.isLive (.table e) = true := by
  obtain ⟨-, mt, t, -, found, -⟩ := layered.overlay member
  exact Arena.contains_iff.mpr ⟨t, found⟩

/-- A new environment is layered over the root as those before are. -/
theorem of_brings (brings : Environment.Brings m owner e after) : after.Layered := by
  obtain ⟨mt, ⟨shared, known, holds⟩, ⟨base, shut, reads⟩, fields⟩ := brings.base
  have adds := brings.adds
  obtain ⟨root, found, bare⟩ := layered.root
  constructor
  case minted => exact adds.minted.trans (layered.minted.trans adds.heap.symm)
  case root =>
    rw [adds.globals]
    exact ⟨root, adds.tables found, bare⟩
  case fallback =>
    intro guard other
    cases known.symm.trans other
    rw [adds.globals]
    exact ⟨mt, base, holds, shut, reads⟩
  case overlay =>
    intro other member
    rw [adds.globals]
    rcases brings.overlays.mp member with rfl | member
    · refine ⟨?_, mt, _, ⟨shared, known, holds⟩, fields, rfl⟩
      rintro rfl
      exact Bool.false_ne_true (brings.fresh.symm.trans layered.live_globals)
    · obtain ⟨apart, mt, t, ⟨guard, there, holds⟩, found, attached⟩ := layered.overlay member
      exact ⟨apart, mt, t, ⟨guard, brings.kept there, holds⟩, adds.tables found, attached⟩

end Machine.Layered
end HookMachine
