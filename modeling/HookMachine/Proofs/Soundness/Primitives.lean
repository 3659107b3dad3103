import HookMachine.Proofs.Soundness.Judgement
import HookMachine.Proofs.Soundness.PrototypeContents
import HookMachine.Proofs.Soundness.TableContents

/-!
The operations of the machine by themselves. One on valid arguments never blames a handle, and
hands out valid results.
-/

namespace HookMachine

open Rules (Tracks Leads)

variable {rules : Rules} {own : List Guard} {m : Machine}

namespace Rules

/-- What a sound machine refers to from a table is valid. -/
theorem Sound.references (sound : rules.Sound own m) {handle : Handle} {t : Table}
    (found : m.heap.tables.get handle = .ok t)
    : ∀ value ∈ t.references, rules.Valid m value :=
  (sound.tables found).references

theorem Sound.metatable (sound : rules.Sound own m) {handle : Handle} {t : Table}
    {mt : TableRef} (found : m.heap.tables.get handle = .ok t) (attached : t.metatable = some mt)
    : rules.Valid m (.table mt) :=
  (Table.forall_references .. |>.mp (sound.references found)).2.2 mt attached

end Rules

namespace Vm

-----------------------------------------------------------------------------------------
-- Looking at the machine
-----------------------------------------------------------------------------------------

theorem found_leads {α : Type} {arena : Arena α} {handle : Handle}
    (sound : rules.Sound own m) (live : rules.careful → arena.contains handle = true)
    : rules.Leads own (found (arena.get handle)) m
        fun value after => m = after ∧ arena.get handle = .ok value := by
  rcases result : arena.get handle with miss | value
  · refine .fail sound (fun careful => ?_) (.refl _)
    obtain ⟨value, found⟩ := Arena.contains_iff.mp (live careful)
    simp [result] at found
  · exact .pure sound ⟨rfl, rfl⟩

theorem table_leads (sound : rules.Sound own m) {ref : TableRef}
    (valid : rules.Valid m (.table ref))
    : rules.Leads own (table ref) m
        fun t after => m = after ∧ m.heap.tables.get ref.handle = .ok t :=
  .get (found_leads sound fun careful => valid careful _ rfl)

theorem closure_leads (sound : rules.Sound own m) {ref : ClosureRef}
    (valid : rules.Valid m (.closure ref))
    : rules.Leads own (closure ref) m
        fun c after => m = after ∧ m.heap.closures.get ref.handle = .ok c :=
  .get (found_leads sound fun careful => valid careful _ rfl)

theorem native_leads (sound : rules.Sound own m) {ref : NativeRef}
    (valid : rules.Valid m (.native ref))
    : rules.Leads own (native ref) m
        fun n after => m = after ∧ m.heap.natives.get ref.handle = .ok n :=
  .get (found_leads sound fun careful => valid careful _ rfl)

theorem prototype_leads (sound : rules.Sound own m) (ref : PrototypeRef)
    : rules.Leads own (prototype ref) m
        fun p after => m = after ∧ p = m.prototypes.get ref :=
  .get (.pure sound ⟨rfl, rfl⟩)

theorem checkOwner_leads (sound : rules.Sound own m) {value : Value}
    (valid : rules.Valid m value)
    : rules.Leads own (checkOwner value) m
        fun _ after => m = after ∧ m.heap.owns value = true := by
  refine .get ?_
  rcases owned : m.heap.owns value with _ | _
  · refine .fail sound (fun careful => ?_) (.refl _)
    simp [sound.owns valid careful] at owned
  · exact .pure sound ⟨rfl, rfl⟩

theorem checkKey_leads (sound : rules.Sound own m) (key : Value)
    : rules.Leads own (checkKey key) m fun _ after => m = after ∧ key.isKey = true := by
  cases key with
  | nil => exact .fail sound (.of_blameless rfl) (.refl _)
  | number x =>
      simp only [checkKey]
      split
      · exact .fail sound (.of_blameless rfl) (.refl _)
      · rename_i number
        exact .pure sound ⟨rfl, by simpa [Value.isKey] using number⟩
  | _ => exact .pure sound ⟨rfl, rfl⟩

theorem readCell_leads (sound : rules.Sound own m) {cell : CellRef}
    (valid : rules.ValidCell m cell)
    : rules.Leads own (readCell cell) m fun value after => rules.Valid after value :=
  .get (.pure sound valid)

theorem rawGet_leads (sound : rules.Sound own m) {ref : TableRef} (key : Value)
    (valid : rules.Valid m (.table ref))
    : rules.Leads own (rawGet ref key) m
        fun value after => m = after ∧ rules.Valid m value := by
  refine (table_leads sound valid).bind fun t after passed read => ?_
  obtain ⟨rfl, found⟩ := read
  refine .pure sound ⟨rfl, .orNil fun value held => ?_⟩
  exact sound.references found value (Table.mem_references_of_get? held)

theorem metatable_leads (sound : rules.Sound own m) {value : Value}
    (valid : rules.Valid m value)
    : rules.Leads own (metatable value) m
        fun mt after => m = after ∧ ∀ ref, mt = some ref → rules.Valid m (.table ref) := by
  cases value with
  | table ref =>
      refine (table_leads sound valid).bind fun t after passed read => ?_
      obtain ⟨rfl, found⟩ := read
      exact .pure sound ⟨rfl, fun mt attached => sound.metatable found attached⟩
  | _ => exact .pure sound ⟨rfl, by simp⟩

theorem functionName_leads (sound : rules.Sound own m) {f : Value} (valid : rules.Valid m f)
    : rules.Leads own (functionName f) m fun _ after => m = after := by
  cases f with
  | closure ref =>
      refine (closure_leads sound valid).bind fun c after passed read => ?_
      obtain ⟨rfl, found⟩ := read
      exact .get (.pure sound rfl)
  | native ref =>
      refine (native_leads sound valid).bind fun n after passed read => ?_
      exact .pure passed.sound read.1
  | _ => exact .pure sound rfl

-----------------------------------------------------------------------------------------
-- New objects and cells
-----------------------------------------------------------------------------------------

theorem newTable_leads (sound : rules.Sound own m)
    : rules.Leads own newTable m
        fun ref after => rules.Valid after (.table ref)
          ∧ after.heap.tables.get ref.handle = .ok {} := by
  have found := Arena.get_insert_self m.heap.tables ({} : Table)
  refine .modifyGet sound.insertTable ⟨.of_live rfl ?_, found⟩
  exact Arena.contains_iff.mpr ⟨_, found⟩

theorem newClosure_leads (sound : rules.Sound own m) {c : Closure}
    (good : rules.SoundClosure m c) (direct : c.redirect = none)
    : rules.Leads own (newClosure c) m
        fun ref after => rules.Valid after (.closure ref)
          ∧ after.heap.closures.get ref.handle = .ok c := by
  have found := Arena.get_insert_self m.heap.closures c
  refine .modifyGet (sound.insertClosure good direct) ⟨.of_live rfl ?_, found⟩
  exact Arena.contains_iff.mpr ⟨_, found⟩

theorem newNative_leads (sound : rules.Sound own m) {n : Native}
    (good : rules.SoundNative m n)
    : rules.Leads own (newNative n) m fun ref after => rules.Valid after (.native ref) := by
  refine .modifyGet (sound.insertNative good) (.of_live rfl ?_)
  exact Arena.contains_iff.mpr ⟨_, Arena.get_insert_self m.heap.natives n⟩

theorem createNative_leads (sound : rules.Sound own m) {n : Native}
    (good : rules.SoundNative m n)
    : rules.Leads own (createNative n) m fun ref after => rules.Valid after (.native ref) := by
  have checked (values : List Value) (valid : ∀ value ∈ values, rules.Valid m value)
      : rules.Leads own (values.forM checkOwner) m fun _ after => m = after := by
    induction values with
    | nil => exact .pure sound rfl
    | cons value values ih =>
        obtain ⟨first, rest⟩ := List.forall_mem_cons.mp valid
        refine (checkOwner_leads sound first).bind fun _ after _ checked => ?_
        obtain ⟨rfl, _⟩ := checked
        exact ih rest
  refine (checked n.bound good.bound).bind fun _ after _ same => ?_
  subst same
  exact newNative_leads sound good

theorem newCell_leads (sound : rules.Sound own m) {value : Value} (valid : rules.Valid m value)
    : rules.Leads own (newCell value) m fun cell after => rules.ValidCell after cell := by
  have read (index : Nat)
      : (m.cells.push value).getD index .nil
        = if index = m.cells.size then value else m.cells.getD index .nil := by
    simp only [Array.getD_eq_getD_getElem?, Array.getElem?_push]
    split <;> rfl
  have changed := sound.changeCells (m.cells.push value) fun cell good => by
    rw [read]
    split
    · exact valid
    · exact good
  refine .modifyGet changed (changed.later.valid ?_)
  simpa only [read, if_true] using valid

theorem writeCell_leads (sound : rules.Sound own m) {value : Value}
    (valid : rules.Valid m value) (cell : CellRef)
    : rules.Leads own (writeCell cell value) m fun _ _ => True := by
  refine .modify (sound.changeCells _ fun other good => ?_) trivial
  unfold Rules.ValidCell at good
  simp only [Array.getD_eq_getD_getElem?, Array.getElem?_setIfInBounds] at good ⊢
  split
  · split
    · exact valid
    · exact Rules.valid_nil
  · exact good

theorem newCells_leads (sound : rules.Sound own m) (count : Nat)
    : rules.Leads own (newCells count) m
        fun cells after => ∀ cell ∈ cells, rules.ValidCell after cell := by
  induction count generalizing m with
  | zero => exact .pure sound (by simp)
  | succ count ih =>
      refine (newCell_leads sound Rules.valid_nil).bind fun cell after made good => ?_
      refine (ih made.sound).bind fun cells last more rest => ?_
      refine .pure more.sound (List.forall_mem_cons.mpr ⟨more.later.cell good, rest⟩)

/-- A prototype assembled from valid constants over valid prototypes is valid. -/
theorem addPrototype_leads (sound : rules.Sound own m) (p : Prototype)
    : rules.Leads own (addPrototype p) m
        fun ref after => (∀ value ∈ p.constants, rules.Valid after value)
          → (∀ child ∈ p.nested, rules.ValidPrototype after child)
          → rules.ValidPrototype after ref := by
  have changed := sound.changePrototypes (m.prototypes.insert p).2
    fun ref valid => by
      obtain ⟨bound, references⟩ := valid
      refine ⟨?_, fun value member => references value ?_⟩
      · rw [PrototypeStore.size_insert]
        exact Nat.lt_succ_of_lt bound
      · exact PrototypeStore.mem_references_of_insert p member bound
  refine .modifyGet changed fun constants nested => ⟨?_, fun value member => ?_⟩
  · exact (PrototypeStore.size_insert m.prototypes p).symm ▸ Nat.lt_succ_self _
  · rcases PrototypeStore.mem_references_insert p member with constant | below
    · exact constants value constant
    · obtain ⟨child, listed, inner⟩ := below
      exact (nested child listed).references value inner

/-- A closure over a valid prototype in a valid environment is valid. -/
theorem instantiate_leads (sound : rules.Sound own m) {ref : PrototypeRef}
    (environment : Option TableRef) (valid : rules.ValidPrototype m ref)
    (table : ∀ held, environment = some held → rules.Valid m (.table held))
    : rules.Leads own (instantiate ref environment) m
        fun closure after => rules.Valid after (.closure closure) := by
  refine (prototype_leads sound ref).bind fun p after _ read => ?_
  obtain ⟨rfl, rfl⟩ := read
  refine (newCells_leads sound _).bind fun cells after made good => ?_
  refine .get ((newClosure_leads made.sound ⟨rfl, ?_, ?_, ?_, by simp⟩ rfl).mono ?_)
  · exact made.later.prototype valid
  · cases environment with
    | none => exact made.sound.globals_valid
    | some held => exact made.later.valid (table held rfl)
  · simpa using good
  · exact fun closure last _ made => made.1

-----------------------------------------------------------------------------------------
-- Changes of objects
-----------------------------------------------------------------------------------------

theorem updateTable_leads (sound : rules.Sound own m) {ref : TableRef}
    {change : Table → Table} (valid : rules.Valid m (.table ref))
    (alters : ∀ t, m.heap.tables.get ref.handle = .ok t
      → m.Alters { m with heap.tables := m.heap.tables.modify ref.handle change })
    (good : ∀ t, m.heap.tables.get ref.handle = .ok t → rules.SoundTable m (change t))
    : rules.Leads own (updateTable ref change) m fun _ _ => True := by
  refine (table_leads sound valid).bind fun t after _ read => ?_
  obtain ⟨rfl, found⟩ := read
  exact .modify (sound.modifyTable (alters t found) good) trivial

theorem setField_leads (sound : rules.Sound own m) {ref : TableRef} {t : Table}
    {key value : Value} (found : m.heap.tables.get ref.handle = .ok t)
    (writable : t.readOnly = false) (named : key.isKey = true) (owned : m.heap.owns value = true)
    (valid : rules.Valid m (.table ref)) (key_valid : rules.Valid m key)
    (value_valid : rules.Valid m value)
    : rules.Leads own (updateTable ref (·.set key value)) m fun _ _ => True := by
  refine updateTable_leads sound valid (fun _ _ => .written found writable named owned)
    fun t found => ⟨?_, ?_⟩
  · exact (Table.marked_set ..).trans (sound.tables found).plain
  · exact Table.references_set (sound.references found) key_valid value_valid

theorem rawSet_leads (sound : rules.Sound own m) {ref : TableRef} {key value : Value}
    (valid : rules.Valid m (.table ref)) (key_valid : rules.Valid m key)
    (value_valid : rules.Valid m value)
    : rules.Leads own (rawSet ref key value) m fun _ _ => True := by
  refine (checkKey_leads sound key).bind fun _ after _ checked => ?_
  obtain ⟨rfl, named⟩ := checked
  refine (checkOwner_leads sound value_valid).bind fun _ after _ checked => ?_
  obtain ⟨rfl, owned⟩ := checked
  refine (table_leads sound valid).bind fun t after _ read => ?_
  obtain ⟨rfl, found⟩ := read
  split
  · exact .fail sound (.of_blameless rfl) (.refl _)
  · rename_i writable
    have writable := Bool.eq_false_iff.mpr writable
    exact setField_leads sound found writable named owned valid key_valid value_valid

theorem setMetatable_leads (sound : rules.Sound own m) {ref : TableRef}
    (metatable : Option TableRef) (valid : rules.Valid m (.table ref))
    (mt_valid : ∀ mt, metatable = some mt → rules.Valid m (.table mt))
    : rules.Leads own (setMetatable ref metatable) m fun _ _ => True := by
  have attach (there : ∀ mt, metatable = some mt → m.heap.isLive (.table mt) = true)
      : rules.Leads own (updateTable ref fun t => { t with metatable }) m fun _ _ => True := by
    refine updateTable_leads sound valid (fun _ found => .attached found there)
      fun t found => ⟨(sound.tables found).plain, ?_⟩
    obtain ⟨array, hash, _⟩ := Table.forall_references .. |>.mp (sound.references found)
    exact Table.forall_references .. |>.mpr ⟨array, hash, mt_valid⟩
  cases metatable with
  | none => exact attach (by simp)
  | some mt =>
      refine (table_leads sound (mt_valid mt rfl)).bind fun t after _ read => ?_
      obtain ⟨rfl, found⟩ := read
      refine attach ?_
      rintro _ ⟨⟩
      exact Arena.contains_iff.mpr ⟨t, found⟩

theorem setReadOnly_leads (sound : rules.Sound own m) {ref : TableRef} (readOnly : Bool)
    (valid : rules.Valid m (.table ref))
    : rules.Leads own (setReadOnly ref readOnly) m fun _ _ => True :=
  updateTable_leads sound valid (fun _ found => .shielded found) fun _ found =>
    ⟨(sound.tables found).plain, (sound.tables found).references⟩

/-- A closure may be sent elsewhere without a hook if the rules allow that. -/
theorem setRedirect_leads (sound : rules.Sound own m) (allowed : rules.redirects)
    {ref : ClosureRef} (target : Option Value) (valid : rules.Valid m (.closure ref))
    (target_valid : ∀ value, target = some value → rules.Valid m value)
    : rules.Leads own (setRedirect ref target) m fun _ _ => True := by
  have send : rules.Leads own (updateClosure ref fun c => { c with redirect := target }) m
      fun _ _ => True := by
    refine (closure_leads sound valid).bind fun c after _ read => ?_
    obtain ⟨rfl, _⟩ := read
    have kept := sound.redirect ref m.hooks.functions target_valid (.refl _) (fun _ => .inl)
      sound.single
    exact .modify ⟨kept, fun apart => absurd allowed apart⟩ trivial
  cases target with
  | none => exact send
  | some value =>
      refine (checkOwner_leads sound (target_valid value rfl)).bind fun _ after _ checked => ?_
      obtain ⟨rfl, _⟩ := checked
      exact send

-----------------------------------------------------------------------------------------
-- Copies and retained values
-----------------------------------------------------------------------------------------

theorem clone_leads (sound : rules.Sound own m) {f : Value} (valid : rules.Valid m f)
    : rules.Leads own (clone f) m
        fun copy after => ∀ value, copy = some value → rules.Valid after value := by
  refine (checkOwner_leads sound valid).bind fun _ after _ checked => ?_
  obtain ⟨rfl, _⟩ := checked
  cases f with
  | closure ref =>
      refine (closure_leads sound valid).bind fun c after _ read => ?_
      obtain ⟨rfl, found⟩ := read
      have good := sound.closures found
      have copied : rules.SoundClosure m { c with redirect := none, marked := false } :=
        { good with plain := rfl, redirect := by simp }
      refine (newClosure_leads sound copied rfl).bind fun copy after made held => ?_
      exact .pure made.sound fun value same => by cases same; exact held.1
  | native ref =>
      refine (native_leads sound valid).bind fun n after _ read => ?_
      obtain ⟨rfl, found⟩ := read
      have good := sound.natives found
      have copied : rules.SoundNative m { n with marked := false } :=
        { good with plain := rfl }
      refine (newNative_leads sound copied).bind fun copy after made held => ?_
      exact .pure made.sound fun value same => by cases same; exact held
  | _ => exact .pure sound (by simp)

/-- What is retained belongs to the one who asked. -/
theorem retain_tracks (sound : rules.Sound own m) {value : Value} (valid : rules.Valid m value)
    : rules.Tracks (retain value) m (fun slot => { slot, value } :: own) own
        fun _ _ => True := by
  refine (checkOwner_leads sound valid).bind fun _ after _ checked => ?_
  obtain ⟨rfl, _⟩ := checked
  exact .modifyGet (sound.insertRetained valid) trivial

theorem hold_tracks (sound : rules.Sound own m) {value : Value} (valid : rules.Valid m value)
    : rules.Tracks (Vm.hold value) m (fun guard => guard :: own) own
        fun guard after => guard.value = value ∧ rules.Valid after value := by
  refine (checkOwner_leads sound valid).bind fun _ after _ checked => ?_
  obtain ⟨rfl, _⟩ := checked
  have held := sound.hold value valid
  exact .modifyGet held ⟨rfl, held.later.valid valid⟩

theorem release_tracks {left : List Guard} {guard : Guard} (sound : rules.Sound own m)
    (within : (guard :: left).Subperm own)
    : rules.Tracks (release guard.slot) m (fun _ => left) own fun _ _ => True :=
  .modifyGet (sound.forget within).removeRetained trivial

end Vm
end HookMachine
