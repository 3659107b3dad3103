import HookMachine.Inspection.Filter
import HookMachine.Proofs.Arena.History
import HookMachine.Proofs.Table.Invariants
import Mathlib.Data.List.Sort

/-!
What is found by criteria. The objects that are found are exactly the live ones of the kind that
meet everything that is asked, each once and in the order in which all objects are listed, so who
asks for more finds a sublist.
-/

namespace HookMachine

variable {m : Machine} {criteria tighter : Criteria} {kind : ObjectKind} {value : Value}

-----------------------------------------------------------------------------------------
-- What criteria ask for
-----------------------------------------------------------------------------------------

/-- One thing that is asked of an object. -/
inductive Criterion where
  | name (text : String)
  | upvalues (count : Nat)
  | constants (count : Nat)
  | bytecode
  | key (key : Value)
  | value (value : Value)
  | metatable (ref : TableRef)

/-- All that criteria ask for. -/
def Criteria.asked (criteria : Criteria) : List Criterion :=
  (criteria.name.map .name).toList ++ (criteria.upvalues.map .upvalues).toList
    ++ (criteria.constants.map .constants).toList
    ++ (if criteria.bytecodeOnly then [.bytecode] else [])
    ++ criteria.keys.map .key ++ criteria.values.map .value
    ++ (criteria.metatable.map .metatable).toList

/-- What a closure is asked for; nothing that is asked of tables. -/
def Closure.Meets (m : Machine) (c : Closure) : Criterion → Prop
  | .name text => (m.prototypes.get c.prototype).name = some text
  | .upvalues count => count = c.upvalues.size
  | .constants count => count = (m.prototypes.get c.prototype).constants.size
  | .bytecode | .key _ | .value _ | .metatable _ => True

/-- What a native is asked for: it has no captured variables, and never as many constants as asked.
-/
def Native.Meets (n : Native) : Criterion → Prop
  | .name text => text = n.name
  | .upvalues count => count = 0
  | .constants _ | .bytecode => False
  | .key _ | .value _ | .metatable _ => True

/-- What a table is asked for; nothing that is asked of functions. -/
def Table.Meets (t : Table) : Criterion → Prop
  | .key key => ∃ value, t.get? key = some value ∧ value ≠ .nil
  | .value wanted => ∃ key value, t.get? key = some value ∧ (value == wanted) = true
  | .metatable ref => t.metatable = some ref
  | .name _ | .upvalues _ | .constants _ | .bytecode => True

/-- A value is a live object of a kind that meets all that is asked. -/
inductive Machine.Offers (m : Machine) (asked : Criterion → Prop) : ObjectKind → Value → Prop
  | closure {ref c} (found : m.heap.closures.get ref.handle = .ok c)
    (meets : ∀ criterion, asked criterion → c.Meets m criterion)
    : Offers m asked .callable (.closure ref)
  | native {ref n} (found : m.heap.natives.get ref.handle = .ok n)
    (meets : ∀ criterion, asked criterion → n.Meets criterion)
    : Offers m asked .callable (.native ref)
  | table {ref t} (found : m.heap.tables.get ref.handle = .ok t)
    (meets : ∀ criterion, asked criterion → t.Meets criterion)
    : Offers m asked .container (.table ref)

/-- Who asks for less is offered no less. -/
theorem Machine.Offers.mono {asked fewer : Criterion → Prop}
    (within : ∀ criterion, fewer criterion → asked criterion) (offers : m.Offers asked kind value)
    : m.Offers fewer kind value := by
  cases offers with
  | closure found meets => exact .closure found fun _ less => meets _ (within _ less)
  | native found meets => exact .native found fun _ less => meets _ (within _ less)
  | table found meets => exact .table found fun _ less => meets _ (within _ less)

theorem Criteria.forall_asked {P : Criterion → Prop}
    : (∀ criterion ∈ criteria.asked, P criterion)
      ↔ (∀ text, criteria.name = some text → P (.name text))
        ∧ (∀ count, criteria.upvalues = some count → P (.upvalues count))
        ∧ (∀ count, criteria.constants = some count → P (.constants count))
        ∧ (criteria.bytecodeOnly = true → P .bytecode)
        ∧ (∀ key ∈ criteria.keys, P (.key key))
        ∧ (∀ wanted ∈ criteria.values, P (.value wanted))
        ∧ (∀ ref, criteria.metatable = some ref → P (.metatable ref)) := by
  simp only [asked, List.forall_mem_append, Option.mem_toList, Option.map_eq_some_iff,
    List.forall_mem_map, forall_exists_index, and_imp, forall_apply_eq_imp_iff₂, and_assoc]
  cases criteria.bytecodeOnly <;> simp

-----------------------------------------------------------------------------------------
-- The tests of criteria
-----------------------------------------------------------------------------------------

/-- Nothing that is read of a table is nil. -/
theorem Table.Parted.ne_nil_of_get? {t : Table} {key : Value} {slack : Nat}
    (parted : t.Parted slack) (read : t.get? key = some value)
    : value ≠ .nil := by
  rw [parted.get?_eq] at read
  rintro rfl
  rcases Option.or_eq_some_iff.mp read with read | ⟨-, read⟩
  · obtain ⟨n, -, held⟩ := Option.bind_eq_some_iff.mp read
    exact Bool.noConfusion (cell_eq_some.mp held).2
  · obtain ⟨same, -, member⟩ := exists_mem_of_lookup read
    exact Bool.noConfusion (parted.stored _ member)

namespace Inspection

theorem met_iff {α : Type} {criterion : Option α} {test : α → Bool}
    : met criterion test = true ↔ ∀ a, criterion = some a → test a = true := by
  cases criterion <;> simp [met]

theorem closureMatches_iff {c : Closure}
    : closureMatches m criteria c = true ↔ ∀ criterion ∈ criteria.asked, c.Meets m criterion := by
  simp [closureMatches, met_iff, Criteria.forall_asked, Closure.Meets, and_assoc]

theorem nativeMatches_iff {n : Native}
    : nativeMatches criteria n = true ↔ ∀ criterion ∈ criteria.asked, n.Meets criterion := by
  have unasked : criteria.constants.isNone = true ↔ ∀ count, criteria.constants ≠ some count := by
    rw [Option.isNone_iff_eq_none, Option.eq_none_iff_forall_ne_some]
  rw [nativeMatches, Bool.and_eq_true, unasked]
  simp only [Bool.and_eq_true, Bool.not_eq_true', met_iff, beq_iff_eq, Criteria.forall_asked,
    Native.Meets, imp_false, Bool.not_eq_true, implies_true, and_true]
  tauto

/-- Where the two parts of a table divide its keys, tests of the parts are tests of what is read. -/
theorem tableMatches_iff {t : Table} (parted : t.Parted 1)
    : tableMatches criteria t = true ↔ ∀ criterion ∈ criteria.asked, t.Meets criterion := by
  have filled (key : Value)
      : (t.get? key).isSome = true ↔ ∃ value, t.get? key = some value ∧ value ≠ .nil := by
    rw [Option.isSome_iff_exists]
    exact exists_congr fun value => (and_iff_left_of_imp parted.ne_nil_of_get?).symm
  have listed (wanted : Value)
      : (t.entries.any fun field => field.2 == wanted) = true
        ↔ ∃ key value, t.get? key = some value ∧ (value == wanted) = true := by
    rw [List.any_eq_true]
    constructor
    · rintro ⟨⟨key, value⟩, member, same⟩
      exact ⟨key, value, parted.get?_of_mem member, same⟩
    · rintro ⟨key, value, read, same⟩
      obtain ⟨alike, -, member⟩ := parted.exists_mem_of_get? read
      exact ⟨(alike, value), member, same⟩
  simp only [tableMatches, Bool.and_eq_true, List.all_eq_true, filled, listed, met_iff, beq_iff_eq,
    Criteria.forall_asked, Table.Meets, implies_true, true_and]
  tauto

end Inspection

-----------------------------------------------------------------------------------------
-- The order in which objects are listed
-----------------------------------------------------------------------------------------

/-- An object is listed before another: closures first, then natives, then tables, each by slot. -/
def Value.ListedBefore : Value → Value → Prop
  | .closure a, .closure b => a.handle.index < b.handle.index
  | .native a, .native b => a.handle.index < b.handle.index
  | .table a, .table b => a.handle.index < b.handle.index
  | .closure _, .native _ | .closure _, .table _ | .native _, .table _ => True
  | _, _ => False

/-- No two objects are listed before each other. -/
instance : Std.Antisymm Value.ListedBefore where
  antisymm a b before after := by
    cases a <;> cases b <;> simp only [Value.ListedBefore] at before after
    all_goals exact absurd after (Nat.lt_asymm before)

theorem Value.ListedBefore.ne {a b : Value} (before : a.ListedBefore b) : a ≠ b := by
  rintro rfl
  cases a <;> simp [ListedBefore] at before

theorem Arena.pairwise_toList {α : Type} (arena : Arena α)
    : arena.toList.Pairwise fun first second => first.1.index < second.1.index := by
  have indices : (arena.handles.map Handle.index).Pairwise (· < ·) := by
    rw [indices_handles]
    exact List.pairwise_lt_range.filter _
  rw [handles, List.map_map] at indices
  exact List.pairwise_map.mp indices

theorem Heap.pairwise_objects (heap : Heap) (tables : Bool)
    : (heap.objects tables).Pairwise Value.ListedBefore := by
  unfold objects
  refine List.pairwise_append.mpr ⟨List.pairwise_append.mpr ⟨?_, ?_, ?_⟩, ?_, ?_⟩
  · exact List.pairwise_map.mpr heap.closures.pairwise_toList
  · exact List.pairwise_map.mpr heap.natives.pairwise_toList
  · intro first closures second natives
    obtain ⟨_, -, rfl⟩ := List.mem_map.mp closures
    obtain ⟨_, -, rfl⟩ := List.mem_map.mp natives
    trivial
  · split
    · exact List.pairwise_map.mpr heap.tables.pairwise_toList
    · exact .nil
  · intro first functions second others
    split at others
    · obtain ⟨_, -, rfl⟩ := List.mem_map.mp others
      rcases List.mem_append.mp functions with closures | natives
      · obtain ⟨_, -, rfl⟩ := List.mem_map.mp closures
        trivial
      · obtain ⟨_, -, rfl⟩ := List.mem_map.mp natives
        trivial
    · exact absurd others List.not_mem_nil

-----------------------------------------------------------------------------------------
-- What is found
-----------------------------------------------------------------------------------------

namespace Inspection

theorem mem_filter_iff (parted : m.AllTables (Table.Parted 1))
    : value ∈ filter m kind criteria ↔ m.Offers (· ∈ criteria.asked) kind value := by
  constructor
  · intro member
    cases kind with
    | callable =>
        rcases List.mem_append.mp member with closures | natives
        · obtain ⟨⟨handle, c⟩, kept, rfl⟩ := List.mem_map.mp closures
          obtain ⟨listed, matched⟩ := List.mem_filter.mp kept
          exact .closure (Arena.mem_toList.mp listed) (closureMatches_iff.mp matched)
        · obtain ⟨⟨handle, n⟩, kept, rfl⟩ := List.mem_map.mp natives
          obtain ⟨listed, matched⟩ := List.mem_filter.mp kept
          exact .native (Arena.mem_toList.mp listed) (nativeMatches_iff.mp matched)
    | container =>
        obtain ⟨⟨handle, t⟩, kept, rfl⟩ := List.mem_map.mp member
        obtain ⟨listed, matched⟩ := List.mem_filter.mp kept
        have found := Arena.mem_toList.mp listed
        exact .table found ((tableMatches_iff (parted handle t found)).mp matched)
  · intro offers
    cases offers with
    | @closure ref c found meets =>
        refine List.mem_append_left _ (List.mem_map.mpr ⟨(ref.handle, c), ?_, rfl⟩)
        exact List.mem_filter.mpr ⟨Arena.mem_toList.mpr found, closureMatches_iff.mpr meets⟩
    | @native ref n found meets =>
        refine List.mem_append_right _ (List.mem_map.mpr ⟨(ref.handle, n), ?_, rfl⟩)
        exact List.mem_filter.mpr ⟨Arena.mem_toList.mpr found, nativeMatches_iff.mpr meets⟩
    | @table ref t found meets =>
        refine List.mem_map.mpr ⟨(ref.handle, t), List.mem_filter.mpr ⟨?_, ?_⟩, rfl⟩
        · exact Arena.mem_toList.mpr found
        · exact (tableMatches_iff (parted ref.handle t found)).mpr meets

/-- Nothing is found but what is listed, and in the order in which it is listed. -/
theorem filter_sublist_objects (m : Machine) (kind : ObjectKind) (criteria : Criteria)
    : (filter m kind criteria).Sublist (m.heap.objects (kind = .container)) := by
  cases kind with
  | callable =>
      refine List.Sublist.trans ?_ (List.sublist_append_left _ _)
      exact (List.filter_sublist.map _).append (List.filter_sublist.map _)
  | container => exact (List.filter_sublist.map _).trans (List.sublist_append_right _ _)

/-- Nothing is found twice, and what is found is in the order of all objects. -/
theorem pairwise_filter (m : Machine) (kind : ObjectKind) (criteria : Criteria)
    : (filter m kind criteria).Pairwise Value.ListedBefore :=
  (m.heap.pairwise_objects _).sublist (filter_sublist_objects m kind criteria)

/-- Who asks for no less finds no more. -/
theorem filter_sublist (parted : m.AllTables (Table.Parted 1)) (kind : ObjectKind)
    (within : criteria.asked ⊆ tighter.asked)
    : (filter m kind tighter).Sublist (filter m kind criteria) := by
  have once : (filter m kind tighter).Nodup :=
    (pairwise_filter m kind tighter).imp Value.ListedBefore.ne
  have among : filter m kind tighter ⊆ filter m kind criteria := fun _ found =>
    (mem_filter_iff parted).mpr (((mem_filter_iff parted).mp found).mono fun _ less => within less)
  exact List.sublist_of_subperm_of_pairwise (List.subperm_of_subset once among)
    (pairwise_filter m kind tighter) (pairwise_filter m kind criteria)

end Inspection

/-- What a search finds: all that is offered, each once, in the order in which objects are listed. -/
structure Machine.Finds (m : Machine) (kind : ObjectKind) (criteria : Criteria)
    (found : List Value) : Prop where
  exact (value : Value) : value ∈ found ↔ m.Offers (· ∈ criteria.asked) kind value
  once : found.Nodup
  ordered : found.Pairwise Value.ListedBefore
  listed : found.Sublist (m.heap.objects (kind = .container))

/-- Whatever a runtime gets into, a search for objects of a kind answers and changes nothing. It finds
exactly the live objects that meet all that is asked, each once, in the order in which objects are
listed; and whatever else is asked besides, what is found then is a sublist.
-/
theorem Inspection.finds_of_reached {s : Situation} (reached : s.Reached) (invoke : Invoke)
    (kind : ObjectKind) (criteria : Criteria)
    : ∃ found, serve invoke (.filter kind criteria) s.machine = .ok found s.machine
        ∧ s.machine.Finds kind criteria found
        ∧ ∀ tighter : Criteria, criteria.asked ⊆ tighter.asked
          → ∃ fewer, serve invoke (.filter kind tighter) s.machine = .ok fewer s.machine
            ∧ fewer.Sublist found := by
  have parted := reached.parted
  have ordered := pairwise_filter s.machine kind criteria
  refine ⟨filter s.machine kind criteria, rfl, ⟨fun value => mem_filter_iff parted, ?_, ordered, ?_⟩,
    fun tighter within => ⟨_, rfl, filter_sublist parted kind within⟩⟩
  · exact ordered.imp Value.ListedBefore.ne
  · exact filter_sublist_objects s.machine kind criteria

/-- Of the tables of a runtime one has the metatable, the key and the value in its array part; none has
another key besides.
-/
theorem Inspection.finds_of_reached_table
    : ∃ (s : Situation) (t : TableRef) (criteria tighter : Criteria) (found fewer : List Value),
        s.Reached ∧ criteria.asked ⊆ tighter.asked
          ∧ s.machine.Finds .container criteria found ∧ fewer.Sublist found
          ∧ found.map Value.object? = [some (.table t)] ∧ fewer.length = 0 := by
  let mt : TableRef := ⟨⟨1, 1, 0⟩⟩
  let t : TableRef := ⟨⟨1, 2, 0⟩⟩
  let requests : List Request :=
    [.newTable, .newTable, .newTable, .rawSet t (.string "Name") (.string "Part"),
      .rawSet t (.number 1) (.number 42), .setMetatable t (some mt)]
  let criteria : Criteria :=
    { keys := [.string "Name"], values := [.number 42], metatable := some mt }
  let tighter : Criteria := { criteria with keys := [.string "Size", .string "Name"] }
  obtain ⟨m, reached, one, none⟩
      : ∃ m, Situation.Reached ⟨m, [], []⟩
          ∧ (filter m .container criteria).map Value.object? = [some (.table t)]
          ∧ (filter m .container tighter).length = 0 :=
    ⟨(Machine.create 1 {}).served requests, Situation.Reached.served rfl ⟨1, {}, .refl⟩,
      by decide +kernel, by decide +kernel⟩
  have within : criteria.asked ⊆ tighter.asked := by
    simp [Criteria.asked, criteria, tighter]
  obtain ⟨found, answer, finds, tightened⟩ :=
    finds_of_reached reached (Vm.call 0) .container criteria
  obtain ⟨fewer, answered, sublist⟩ := tightened tighter within
  cases answer
  cases answered
  exact ⟨⟨m, [], []⟩, t, criteria, tighter, _, _, reached, within, finds, sublist, one, none⟩

end HookMachine
