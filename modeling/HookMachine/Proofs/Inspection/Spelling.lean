import HookMachine.Proofs.Deeds.Layers
import HookMachine.Proofs.Inspection.Finding
import HookMachine.Proofs.Number.Counting
import HookMachine.Proofs.Table.Fields

/-!
Searches by scripts, which spell criteria by the fields of a table. Whatever the arguments are, a search
either fails and changes nothing or lists exactly the live objects that meet all that the fields are
taken for. Counts and lists of the wrong kind make it fail, but a name and a metatable of the wrong kind
are passed over, and of a list only the array part is looked at.
-/

namespace HookMachine

variable {m : Machine} {t : Table} {ref : TableRef} {name : String} {ε α β : Type}

-----------------------------------------------------------------------------------------
-- Operations that only look
-----------------------------------------------------------------------------------------

/-- An operation that only looks has a result, and that as `good` says, exactly where `fits` holds. -/
structure Run.Decides (x : Run ε α) (m : Machine) (fits : Prop) (good : α → Prop) : Prop where
  ok : fits → ∃ a, x m = .ok a m ∧ good a
  error : ¬fits → ∃ e, x m = .error (.failed e) m

namespace Run.Decides

variable {x : Run ε α} {f : α → Run ε β} {fits also : Prop} {good : α → Prop} {last : β → Prop}

theorem pure {a : α} (holds : good a) : Decides (pure a : Run ε α) m True good :=
  ⟨fun _ => ⟨a, rfl, holds⟩, fun unfit => absurd trivial unfit⟩

theorem fail (failed : ∃ e, x m = .error (.failed e) m) : Decides x m False good :=
  ⟨False.elim, fun _ => failed⟩

theorem bind (first : Decides x m fits good) (rest : ∀ a, good a → Decides (f a) m also last)
    : Decides (x >>= f) m (fits ∧ also) last := by
  constructor
  · rintro ⟨fit, further⟩
    obtain ⟨a, ran, holds⟩ := first.ok fit
    rw [Run.bind_ok ran]
    exact (rest a holds).ok further
  · intro unfit
    by_cases fit : fits
    · obtain ⟨a, ran, holds⟩ := first.ok fit
      rw [Run.bind_ok ran]
      exact (rest a holds).error fun further => unfit ⟨fit, further⟩
    · obtain ⟨e, ran⟩ := first.error fit
      exact ⟨e, Run.bind_error ran⟩

theorem lift {x : Vm α} (decides : Decides x m fits good)
    : Decides (liftM x : Action α) m fits good := by
  constructor
  · intro fit
    obtain ⟨a, ran, holds⟩ := decides.ok fit
    exact ⟨a, Run.lift_ok ran, holds⟩
  · intro unfit
    obtain ⟨fault, ran⟩ := decides.error unfit
    exact ⟨_, Run.lift_error ran⟩

theorem congr (decides : Decides x m fits good) (same : fits ↔ also) : Decides x m also good :=
  ⟨fun fit => decides.ok (same.mpr fit), fun unfit => decides.error fun fit => unfit (same.mp fit)⟩

/-- What holds of a result may be inferred from what was needed for it. -/
theorem imp (decides : Decides x m fits good) {weaker : α → Prop}
    (infer : fits → ∀ a, good a → weaker a)
    : Decides x m fits weaker :=
  ⟨fun fit => (decides.ok fit).imp fun a => And.imp_right (infer fit a), decides.error⟩

/-- An operation that surely succeeds adds nothing to what the next one needs. -/
theorem after (first : Decides x m True good) (rest : ∀ a, good a → Decides (f a) m also last)
    : Decides (x >>= f) m also last :=
  (first.bind rest).congr (by simp)

end Run.Decides

-----------------------------------------------------------------------------------------
-- What the fields of a table spell
-----------------------------------------------------------------------------------------

/-- The value of a named field, nil without one. -/
def Table.spelled (t : Table) (name : String) : Value :=
  .orNil (t.get? (.string name))

/-- A value is the number `n`. -/
def Value.Counts (value : Value) (n : Nat) : Prop :=
  ∃ x, value = .number x ∧ Number.toInt? x = some (n : Int)

theorem Value.isNil_iff {value : Value} : value.isNil = true ↔ value = .nil := by
  cases value <;> simp [isNil]

theorem Value.toString?_eq_some {value : Value} {text : String}
    : value.toString? = some text ↔ value = .string text := by
  cases value <;> simp [toString?]

theorem Value.toTable?_eq_some {value : Value} : value.toTable? = some ref ↔ value = .table ref := by
  cases value <;> simp [toTable?]

/-- A table has a value under some key. -/
def Table.Stores (t : Table) (value : Value) : Prop :=
  ∃ key, t.get? key = some value

/-- The table in a named field lists a value, where `lists` says what tables list. -/
def Machine.Lists (m : Machine) (lists : Table → Value → Prop) (t : Table) (name : String)
    (value : Value) : Prop :=
  ∃ list items, t.spelled name = .table list ∧ m.heap.tables.get list.handle = .ok items
    ∧ lists items value

/-- What the fields of a table ask for. -/
def Machine.Spells (m : Machine) (lists : Table → Value → Prop) (t : Table) : Criterion → Prop
  | .name text => t.spelled "name" = .string text
  | .upvalues n => (t.spelled "upvalue_count").Counts n
  | .constants n => (t.spelled "constant_count").Counts n
  | .bytecode => (t.spelled "ignore_host").isTruthy = true
  | .key key => m.Lists lists t "keys" key
  | .value value => m.Lists lists t "values" value
  | .metatable ref => t.spelled "metatable" = .table ref

/-- A field is not set or counts. -/
def Table.CountFits (t : Table) (name : String) : Prop :=
  t.spelled name = .nil ∨ ∃ n, (t.spelled name).Counts n

/-- A field is not set or holds a table. -/
def Machine.ListFits (m : Machine) (t : Table) (name : String) : Prop :=
  t.spelled name = .nil
    ∨ ∃ list items, t.spelled name = .table list ∧ m.heap.tables.get list.handle = .ok items

/-- The fields of a table that are checked are of the right kinds. -/
structure Machine.Fits (m : Machine) (t : Table) : Prop where
  upvalues : t.CountFits "upvalue_count"
  constants : t.CountFits "constant_count"
  keys : m.ListFits t "keys"
  values : m.ListFits t "values"

/-- What is in the array part of a table, holes included. -/
def Table.Holds (t : Table) (value : Value) : Prop :=
  value ∈ t.array.toList

namespace Script

theorem table_decides (ref : TableRef)
    : Run.Decides (Vm.table ref) m (∃ t, m.heap.tables.get ref.handle = .ok t) fun t =>
        m.heap.tables.get ref.handle = .ok t := by
  rcases held : m.heap.tables.get ref.handle with miss | t
  · exact (Run.Decides.fail ⟨_, Vm.table_of_miss held⟩).congr (by simp)
  · exact ⟨fun _ => ⟨t, Vm.table_of_get held, rfl⟩, fun unfit => absurd ⟨t, rfl⟩ unfit⟩

section

variable (found : m.heap.tables.get ref.handle = .ok t)

include found

theorem rawGet_decides (name : String)
    : Run.Decides (Vm.rawGet ref (.string name)) m True (· = t.spelled name) :=
  ⟨fun _ => ⟨_, Run.bind_ok (Vm.table_of_get found), rfl⟩, fun unfit => absurd trivial unfit⟩

theorem countCriterion_decides (name : String)
    : Run.Decides (countCriterion ref name) m (t.CountFits name) fun count =>
        ∀ n, count = some n ↔ (t.spelled name).Counts n := by
  refine (rawGet_decides found name).lift.after fun value same => ?_
  subst same
  unfold Table.CountFits Value.Counts
  cases t.spelled name with
  | nil => exact (Run.Decides.pure (by simp)).congr (by simp)
  | number x =>
      dsimp only
      rcases whole : Number.toInt? x with _ | n
      · exact (Run.Decides.fail ⟨_, rfl⟩).congr (by simp [whole])
      · dsimp only
        split
        · rename_i least
          obtain ⟨n, rfl⟩ := Int.eq_ofNat_of_zero_le least
          exact (Run.Decides.pure (by simp [whole])).congr (by simp [whole])
        · rename_i negative
          refine (Run.Decides.fail ⟨_, rfl⟩).congr ?_
          simp [whole]
          omega
  | _ => exact (Run.Decides.fail ⟨_, rfl⟩).congr (by simp)

theorem listCriterion_decides (name : String)
    : Run.Decides (listCriterion ref name) m (m.ListFits t name) fun values =>
        ∀ value, value ∈ values ↔ m.Lists Table.Holds t name value := by
  refine (rawGet_decides found name).lift.after fun value same => ?_
  subst same
  unfold Machine.ListFits Machine.Lists
  cases t.spelled name with
  | nil => exact (Run.Decides.pure (by simp)).congr (by simp)
  | table list =>
      refine ((table_decides list).lift.bind fun items held => .pure ?_).congr (by simp)
      simp [held, Table.Holds]
  | _ => exact (Run.Decides.fail ⟨_, rfl⟩).congr (by simp)

/-- The fields of a table are read as what they spell, the array parts standing for the lists. -/
theorem criteria_decides
    : Run.Decides (criteria ref) m (m.Fits t) fun criteria =>
        ∀ criterion, criterion ∈ criteria.asked ↔ m.Spells Table.Holds t criterion := by
  have split : (t.CountFits "upvalue_count" ∧ t.CountFits "constant_count" ∧ m.ListFits t "keys"
      ∧ m.ListFits t "values" ∧ True) ↔ m.Fits t :=
    ⟨fun ⟨upvalues, constants, keys, values, _⟩ => ⟨upvalues, constants, keys, values⟩,
      fun ⟨upvalues, constants, keys, values⟩ => ⟨upvalues, constants, keys, values, trivial⟩⟩
  refine .congr ?_ split
  refine (rawGet_decides found "name").lift.after fun name named => ?_
  refine (countCriterion_decides found "upvalue_count").bind fun upvalues captured => ?_
  refine (countCriterion_decides found "constant_count").bind fun constants pooled => ?_
  refine (rawGet_decides found "ignore_host").lift.after fun flag flagged => ?_
  refine (listCriterion_decides found "keys").bind fun keys keyed => ?_
  refine (listCriterion_decides found "values").bind fun values valued => ?_
  refine (rawGet_decides found "metatable").lift.after fun metatable attached => .pure ?_
  subst named flagged attached
  intro criterion
  cases criterion <;>
    simp [Criteria.asked, Machine.Spells, Value.toString?_eq_some, Value.toTable?_eq_some, captured,
      pooled, keyed, valued]

end
end Script

-----------------------------------------------------------------------------------------
-- Lists as results
-----------------------------------------------------------------------------------------

/-- Changing what was just added is adding it changed. -/
theorem Arena.modify_insert {α : Type} (arena : Arena α) (value : α) (change : α → α)
    : (arena.insert value).2.modify (arena.insert value).1 change
      = (arena.insert (change value)).2 := by
  have live : (arena.insert value).2.contains (arena.insert value).1 = true :=
    contains_iff.mpr ⟨value, get_insert_self arena value⟩
  rw [modify, if_pos live]
  unfold insert
  split
  · ext1
    · rfl
    · apply Array.ext_getElem?
      intro slot
      simp only [Array.getElem?_modify, Array.getElem?_setIfInBounds]
      split <;> simp
    · rfl
    · rfl
  · ext1
    · rfl
    · apply Array.ext_getElem?
      intro slot
      simp only [Array.getElem?_modify, Array.getElem?_push, eq_comm (a := slot)]
      split <;> simp
    · rfl
    · rfl

/-- The machine and the reference after a table is added that lists values from 1 on. -/
def Machine.listed (m : Machine) (values : List Value) : TableRef × Machine :=
  let (handle, tables) := m.heap.tables.insert (Vm.storeList {} 0 values)
  (⟨handle⟩, { m with heap.tables := tables })

/-- Values that are no holes are stored one after the other, by induction over them. -/
theorem Table.storeList_eq {values : List Value} (plain : t.hash = [])
    (filled : ∀ value ∈ values, value.isNil = false)
    (few : t.array.size + values.length ≤ 2 * Number.fractionValues)
    : Vm.storeList t t.array.size values = { t with array := t.array ++ values.toArray } := by
  induction values generalizing t with
  | nil => simp [Vm.storeList]
  | cons value rest ih =>
      obtain ⟨filled, others⟩ := List.forall_mem_cons.mp filled
      rw [List.length_cons] at few
      have index : index? (.ofNat (t.array.size + 1)) = some (t.array.size + 1) :=
        Number.toIndex?_toFloat (Nat.succ_pos _) (by omega)
      have stored : t.set (.ofNat (t.array.size + 1)) value
          = { t with array := t.array.push value } := by
        unfold set
        rw [index]
        dsimp only
        rw [if_pos ⟨rfl, by simp [filled]⟩, plain]
        rfl
      have next := ih (t := { t with array := t.array.push value }) plain others
        (by simp only [Array.size_push]; omega)
      simpa [Vm.storeList, stored] using next

namespace Script

/-- By induction over the values. -/
theorem fillList_eq {values : List Value} (found : m.heap.tables.get ref.handle = .ok t)
    (writable : t.readOnly = false) (owned : ∀ value ∈ values, m.heap.owns value = true)
    (start : Nat)
    : fillList ref (start + 1) values m
      = .ok () { m with
          heap.tables := m.heap.tables.modify ref.handle (Vm.storeList · start values) } := by
  induction values generalizing m t start with
  | nil =>
      have same : m.heap.tables.modify ref.handle (Vm.storeList · start []) = m.heap.tables :=
        Arena.modify_eq_self found rfl
      rw [same]
      rfl
  | cons value rest ih =>
      obtain ⟨owned, others⟩ := List.forall_mem_cons.mp owned
      have admits : m.Admits (.ofNat (start + 1)) value := ⟨by
        unfold Vm.checkKey Value.ofNat
        dsimp only
        rw [Number.isNaN_toFloat, if_neg Bool.false_ne_true], owned⟩
      have held : (m.stored ref (.ofNat (start + 1)) value).heap.tables.get ref.handle
          = .ok (t.set (.ofNat (start + 1)) value) :=
        Arena.get_modify.mpr ⟨t, found, by simp⟩
      have unlocked : (t.set (.ofNat (start + 1)) value).readOnly = false := by
        have same := congrArg Table.readOnly (t.set_readOnly (.ofNat (start + 1)) value t.readOnly)
        exact same.trans writable
      refine (Run.bind_ok (Vm.rawSet_of_admits admits found writable)).trans ?_
      refine (ih held unlocked others (start + 1)).trans ?_
      unfold Machine.stored
      dsimp only
      rw [Arena.modify_modify]
      rfl

/-- What lists values adds one table that holds them, and changes nothing else. -/
theorem listTable_eq {values : List Value} (owned : ∀ value ∈ values, m.heap.owns value = true)
    : listTable values m = .ok (m.listed values).1 (m.listed values).2 := by
  let empty := m.heap.tables.insert {}
  let ref : TableRef := ⟨empty.1⟩
  have fresh : empty.2.get ref.handle = .ok {} := Arena.get_insert_self m.heap.tables {}
  have filled := fillList_eq (m := { m with heap.tables := empty.2 }) fresh rfl owned 0
  refine (Run.bind_ok filled).trans ?_
  have same : empty.1 = (m.heap.tables.insert (Vm.storeList {} 0 values)).1 := by
    rw [Arena.insert_fst, Arena.insert_fst]
  have whole : empty.2.modify empty.1 (Vm.storeList · 0 values)
      = (m.heap.tables.insert (Vm.storeList {} 0 values)).2 := Arena.modify_insert ..
  dsimp only
  rw [whole]
  unfold Machine.listed
  dsimp only
  rw [← same]
  rfl

end Script

-----------------------------------------------------------------------------------------
-- Searches by scripts
-----------------------------------------------------------------------------------------

/-- The table whose fields a value spells criteria by; nil stands for one without fields. -/
inductive Machine.Gives (m : Machine) : Value → Table → Prop
  | none : Gives m .nil {}
  | table {ref : TableRef} {t : Table} (found : m.heap.tables.get ref.handle = .ok t)
    : Gives m (.table ref) t

/-- Arguments that a search goes by: the name of a kind of objects, and a table that spells criteria.
-/
structure Machine.Asks (m : Machine) (arguments : List Value) (kind : ObjectKind) (t : Table)
    : Prop where
  named : ∃ name, Script.argument arguments 0 = .string name ∧ ObjectKind.ofName? name = some kind
  given : m.Gives (Script.argument arguments 1) t
  fits : m.Fits t

theorem Machine.Gives.unique {value : Value} {other : Table} (gives : m.Gives value t)
    (again : m.Gives value other)
    : t = other := by
  cases gives with
  | none =>
      cases again
      rfl
  | table found =>
      cases again with
      | table held => exact Except.ok.inj (found.symm.trans held)

/-- Arguments ask for one thing at most. -/
theorem Machine.Asks.unique {arguments : List Value} {kind also : ObjectKind} {other : Table}
    (asks : m.Asks arguments kind t) (again : m.Asks arguments also other)
    : kind = also ∧ t = other := by
  obtain ⟨name, given, named⟩ := asks.named
  obtain ⟨_, given', named'⟩ := again.named
  cases given.symm.trans given'
  exact ⟨Option.some.inj (named.symm.trans named'), asks.given.unique again.given⟩

namespace Script

/-- The kind of objects that the first argument of a search names. -/
def kind (arguments : List Value) : Action ObjectKind := do
  let name ← string arguments 0 "object kind"
  match ObjectKind.ofName? name with
  | none => Action.refuse (.unknownObjectKind name)
  | some kind => pure kind

/-- The criteria that the second argument of a search spells. -/
def spec (value : Value) : Action Criteria :=
  match value with
  | .nil => pure {}
  | .table ref => criteria ref
  | other => Action.refuse (.needs "filter spec" .aTable other.kind)

/-- What the arguments of a search ask for. -/
def asked (arguments : List Value) : Action (ObjectKind × Criteria) := do
  let kind ← kind arguments
  let criteria ← spec (argument arguments 1)
  return (kind, criteria)

theorem run_filterObjects (nested : Nested) (caller : Option ClosureRef) (arguments : List Value)
    : run nested caller .filterObjects arguments = (do
        let (kind, criteria) ← asked arguments
        return [.table (← listTable (Inspection.filter (← get) kind criteria))]) := by
  unfold run asked kind
  simp only [bind_assoc, pure_bind]
  refine bind_congr fun name => ?_
  cases ObjectKind.ofName? name with
  | none => rfl
  | some kind =>
      rw [pure_bind]
      unfold spec
      cases argument arguments 1 <;> rfl

theorem kind_decides (m : Machine) (arguments : List Value)
    : Run.Decides (kind arguments) m
        (∃ kind name, argument arguments 0 = .string name ∧ ObjectKind.ofName? name = some kind)
        fun kind =>
          ∃ name, argument arguments 0 = .string name ∧ ObjectKind.ofName? name = some kind := by
  unfold kind string
  cases argument arguments 0 with
  | string name =>
      dsimp only
      rw [pure_bind]
      rcases known : ObjectKind.ofName? name with _ | kind
      · exact (Run.Decides.fail ⟨_, rfl⟩).congr (by simp [known])
      · exact (Run.Decides.pure ⟨name, rfl, known⟩).congr (by simp [known])
  | _ => exact (Run.Decides.fail ⟨_, rfl⟩).congr (by simp)

theorem spec_decides (m : Machine) (value : Value)
    : Run.Decides (spec value) m (∃ t, m.Gives value t ∧ m.Fits t) fun criteria =>
        ∃ t, m.Gives value t ∧ m.Fits t
          ∧ ∀ criterion, criterion ∈ criteria.asked ↔ m.Spells Table.Holds t criterion := by
  cases value with
  | nil =>
      have given : m.Gives .nil {} := .none
      have fits : m.Fits {} := ⟨.inl rfl, .inl rfl, .inl rfl, .inl rfl⟩
      refine .congr (.pure ⟨{}, given, fits, fun criterion => ?_⟩) (iff_of_true trivial ⟨{}, given, fits⟩)
      have bare (name : String) : ({} : Table).spelled name = .nil := rfl
      cases criterion <;>
        simp [Criteria.asked, Machine.Spells, Machine.Lists, Value.Counts, Value.isTruthy, bare]
  | table ref =>
      rcases found : m.heap.tables.get ref.handle with miss | t
      · have missed : Vm.rawGet ref (.string "name") m = .error (.failed (.ofMiss miss)) m :=
          Run.bind_error (Vm.table_of_miss found)
        have failed : criteria ref m = .error (.failed (.fault (.ofMiss miss))) m :=
          Run.bind_error (Run.lift_error missed)
        refine (Run.Decides.fail ⟨_, failed⟩).congr (iff_of_false id ?_)
        rintro ⟨t, given, -⟩
        cases given with
        | table held => cases found.symm.trans held
      · have given : m.Gives (.table ref) t := .table found
        refine ((criteria_decides found).imp fun fits criteria spells => ?_).congr
          ⟨fun fits => ⟨t, given, fits⟩, ?_⟩
        · exact ⟨t, given, fits, spells⟩
        · rintro ⟨_, given, fits⟩
          cases given with
          | table held =>
              cases found.symm.trans held
              exact fits
  | _ =>
      refine (Run.Decides.fail ⟨_, rfl⟩).congr (iff_of_false id ?_)
      rintro ⟨t, given, -⟩
      cases given

theorem asked_decides (m : Machine) (arguments : List Value)
    : Run.Decides (asked arguments) m (∃ kind t, m.Asks arguments kind t) fun asked =>
        ∃ t, m.Asks arguments asked.1 t
          ∧ ∀ criterion, criterion ∈ asked.2.asked ↔ m.Spells Table.Holds t criterion := by
  have split
      : ((∃ kind name, argument arguments 0 = .string name ∧ ObjectKind.ofName? name = some kind)
          ∧ (∃ t, m.Gives (argument arguments 1) t ∧ m.Fits t) ∧ True)
        ↔ ∃ kind t, m.Asks arguments kind t :=
    ⟨fun ⟨⟨kind, named⟩, ⟨t, given, fits⟩, _⟩ => ⟨kind, t, named, given, fits⟩,
      fun ⟨kind, t, asks⟩ => ⟨⟨kind, asks.named⟩, ⟨t, asks.given, asks.fits⟩, trivial⟩⟩
  refine .congr ((kind_decides m arguments).bind fun kind named => ?_) split
  refine (spec_decides m _).bind fun criteria spelled => .pure ?_
  obtain ⟨t, given, fits, spells⟩ := spelled
  exact ⟨t, ⟨named, given, fits⟩, spells⟩

end Script

/-- All values of a table are in its array part, and it has no holes. -/
structure Table.Dense (t : Table) : Prop where
  plain : t.hash = []
  filled : ∀ value ∈ t.array.toList, value ≠ .nil

/-- What a table without holes holds is what it stores. -/
theorem Table.Dense.holds_iff (dense : t.Dense) (parted : t.Parted 1) {value : Value}
    : t.Holds value ↔ t.Stores value := by
  constructor
  · intro held
    obtain ⟨slot, inside, rfl⟩ := Array.mem_iff_getElem.mp (Array.mem_toList_iff.mp held)
    have here : cell t.array slot = some t.array[slot] := by
      refine cell_eq_some.mpr ⟨Array.getElem?_eq_getElem inside, ?_⟩
      exact Bool.eq_false_iff.mpr fun hole => dense.filled _ held (Value.isNil_iff.mp hole)
    exact ⟨_, parted.get?_of_mem (mem_entries.mpr (.inl ⟨slot, inside, rfl, here⟩))⟩
  · rintro ⟨key, read⟩
    obtain ⟨same, -, member⟩ := parted.exists_mem_of_get? read
    rcases mem_entries.mp member with ⟨slot, inside, -, here⟩ | hashed
    · exact List.mem_of_getElem? ((Array.getElem?_toList).trans (cell_eq_some.mp here).1)
    · rw [dense.plain] at hashed
      cases hashed

/-- Every field of a table that criteria know is spelled if it is set: a name is a string, a metatable
is a table, and what lists values has them all in its array part.
-/
structure Machine.Careful (m : Machine) (t : Table) : Prop where
  name : t.spelled "name" = .nil ∨ ∃ text, t.spelled "name" = .string text
  metatable : t.spelled "metatable" = .nil ∨ ∃ ref, t.spelled "metatable" = .table ref
  dense {name : String} (lists : name = "keys" ∨ name = "values") {list : TableRef} {items : Table}
    (field : t.spelled name = .table list) (found : m.heap.tables.get list.handle = .ok items)
    : items.Dense

theorem Machine.Careful.spells_iff (careful : m.Careful t) (parted : m.AllTables (Table.Parted 1))
    (criterion : Criterion)
    : m.Spells Table.Holds t criterion ↔ m.Spells Table.Stores t criterion := by
  have listed {name : String} (lists : name = "keys" ∨ name = "values") (value : Value)
      : m.Lists Table.Holds t name value ↔ m.Lists Table.Stores t name value :=
    exists_congr fun list => exists_congr fun items => and_congr_right fun field =>
      and_congr_right fun found =>
        (careful.dense lists field found).holds_iff (parted list.handle items found)
  cases criterion with
  | key key => exact listed (.inl rfl) key
  | value value => exact listed (.inr rfl) value
  | _ => exact Iff.rfl

/-- What a search by a script finds: each live object of the kind once, in the order in which objects
are listed, that meets what the array parts of the lists and the other fields spell. If every
field is spelled that is set, that is all they say.
-/
structure Machine.Searched (m : Machine) (kind : ObjectKind) (t : Table) (found : List Value)
    : Prop where
  exact (value : Value) : value ∈ found ↔ m.Offers (m.Spells Table.Holds t) kind value
  faithful (careful : m.Careful t) (value : Value)
    : value ∈ found ↔ m.Offers (m.Spells Table.Stores t) kind value
  once : found.Nodup
  ordered : found.Pairwise Value.ListedBefore
  /-- As long as the numbers last, what is found is listed without holes. -/
  listed (few : found.length ≤ 2 * Number.fractionValues)
    : (m.listed found).2.heap.tables.get (m.listed found).1.handle
      = .ok { array := found.toArray }

namespace Machine.Offers

variable {asked other : Criterion → Prop} {kind : ObjectKind} {value : Value}

theorem owned (minted : m.heap.Minted) (offers : m.Offers asked kind value)
    : m.heap.owns value = true := by
  obtain ⟨_, _, _⟩ := minted
  cases offers <;> simp only [Heap.owns, Value.handle?, decide_eq_true_eq]
  all_goals exact (Arena.heap_of_get ‹_›).trans ‹_›

theorem filled (offers : m.Offers asked kind value) : value.isNil = false := by
  cases offers <;> rfl

theorem congr (same : ∀ criterion, asked criterion ↔ other criterion)
    : m.Offers asked kind value ↔ m.Offers other kind value :=
  ⟨.mono fun criterion => (same criterion).mpr, .mono fun criterion => (same criterion).mp⟩

end Machine.Offers

/-- Whatever a runtime gets into and whatever the arguments are, a script that searches either fails
and changes nothing, or is given a new table that lists what it finds.
-/
theorem Script.searches_of_reached {s : Situation} (reached : s.Reached) (nested : Nested)
    (caller : Option ClosureRef) (arguments : List Value)
    : (∀ kind t, s.machine.Asks arguments kind t
        → ∃ found, s.machine.Searched kind t found
          ∧ run nested caller .filterObjects arguments s.machine
            = .ok [.table (s.machine.listed found).1] (s.machine.listed found).2)
      ∧ ((¬∃ kind t, s.machine.Asks arguments kind t)
        → ∃ e, run nested caller .filterObjects arguments s.machine
            = .error (.failed e) s.machine) := by
  have decided := asked_decides s.machine arguments
  rw [run_filterObjects]
  constructor
  · intro kind t asks
    obtain ⟨⟨also, criteria⟩, ran, other, again, spells⟩ := decided.ok ⟨kind, t, asks⟩
    obtain ⟨rfl, rfl⟩ := asks.unique again
    have parted := reached.parted
    have ordered := Inspection.pairwise_filter s.machine kind criteria
    have exact (value : Value) : value ∈ Inspection.filter s.machine kind criteria
        ↔ s.machine.Offers (s.machine.Spells Table.Holds t) kind value :=
      (Inspection.mem_filter_iff parted).trans (Machine.Offers.congr spells)
    refine ⟨Inspection.filter s.machine kind criteria, ?_, ?_⟩
    · refine ⟨exact, fun careful value => ?_, ordered.imp Value.ListedBefore.ne, ordered, fun few => ?_⟩
      · exact (exact value).trans (Machine.Offers.congr (careful.spells_iff parted))
      · have stored := Table.storeList_eq (t := {}) rfl
          (fun value member => ((exact value).mp member).filled) (by simpa using few)
        refine (Arena.get_insert_self ..).trans ?_
        simpa using stored
    · refine (Run.bind_ok ran).trans (Run.bind_ok (Run.lift_ok (listTable_eq ?_)))
      exact fun value member => ((exact value).mp member).owned reached.sound.sound.minted
  · intro unasked
    obtain ⟨e, ran⟩ := decided.error unasked
    exact ⟨e, Run.bind_error ran⟩

/-- A table spells that those that are looked for have the key `"Name"`: one that has it is found, and
the table itself is not.
-/
theorem Script.searches_of_reached_key
    : ∃ (s : Situation) (spec t : TableRef) (fields : Table) (found : List Value),
        s.Reached ∧ s.machine.Asks [.string "table", .table spec] .container fields
          ∧ s.machine.Careful fields ∧ s.machine.Searched .container fields found
          ∧ .table t ∈ found ∧ .table spec ∉ found := by
  let t : TableRef := ⟨⟨1, 1, 0⟩⟩
  let list : TableRef := ⟨⟨1, 2, 0⟩⟩
  let spec : TableRef := ⟨⟨1, 3, 0⟩⟩
  let requests : List Request :=
    [.newTable, .newTable, .newTable, .rawSet t (.string "Name") (.string "Part"),
      .rawSet list (.number 1) (.string "Name"), .rawSet spec (.string "keys") (.table list)]
  let spells (fields : Table) : Bool :=
    (fields.spelled "keys").toTable? == some list && (fields.get? (.string "Name")).isNone
      && ["name", "upvalue_count", "constant_count", "values", "metatable"].all fun name =>
        (fields.spelled name).isNil
  obtain ⟨m, reached, spelled, listed, named⟩
      : ∃ m, Situation.Reached ⟨m, [], []⟩ ∧ m.heap.tables.holds spec.handle spells = true
          ∧ m.heap.tables.holds list.handle (fun items => items.hash.isEmpty
            && items.array.toList.map Value.toString? == [some "Name"]) = true
          ∧ m.heap.tables.holds t.handle (fun t => (t.get? (.string "Name")).isSome) = true :=
    ⟨(Machine.create 1 {}).served requests, Situation.Reached.served rfl ⟨1, {}, .refl⟩,
      by decide +kernel, by decide +kernel, by decide +kernel⟩
  obtain ⟨fields, given, checked⟩ := Arena.holds_iff.mp spelled
  obtain ⟨items, held, dense⟩ := Arena.holds_iff.mp listed
  obtain ⟨part, live, has⟩ := Arena.holds_iff.mp named
  simp only [spells, Bool.and_eq_true, beq_iff_eq, List.all_eq_true] at checked
  obtain ⟨⟨lists, lacks⟩, others⟩ := checked
  have keys : fields.spelled "keys" = .table list := Value.toTable?_eq_some.mp lists
  have unset {name : String}
      (among : name ∈ ["name", "upvalue_count", "constant_count", "values", "metatable"])
      : fields.spelled name = .nil :=
    Value.isNil_iff.mp (others name among)
  have single : items.array.toList = [.string "Name"] := by
    simp only [Bool.and_eq_true, beq_iff_eq] at dense
    obtain ⟨value, one, text⟩ := List.map_eq_singleton_iff.mp dense.2
    rw [one, Value.toString?_eq_some.mp text]
  have asks : m.Asks [.string "table", .table spec] .container fields :=
    ⟨⟨"table", rfl, rfl⟩, .table given, .inl (unset (by simp)), .inl (unset (by simp)),
      .inr ⟨list, items, keys, held⟩, .inl (unset (by simp))⟩
  have careful : m.Careful fields := by
    refine ⟨.inl (unset (by simp)), .inl (unset (by simp)), ?_⟩
    rintro name (rfl | rfl) also other field found
    · cases keys.symm.trans field
      cases held.symm.trans found
      refine ⟨List.isEmpty_iff.mp (Bool.and_eq_true_iff.mp dense).1, fun value member => ?_⟩
      rw [single, List.mem_singleton] at member
      exact member ▸ nofun
    · exact nomatch (unset (by simp)).symm.trans field
  obtain ⟨found, searched, -⟩ :=
    (Script.searches_of_reached reached (fun _ _ => Vm.exhausted) none _).1 _ _ asks
  refine ⟨⟨m, [], []⟩, spec, t, fields, found, reached, asks, careful, searched, ?_, ?_⟩
  · refine (searched.exact _).mpr (.table live fun criterion spelled => ?_)
    cases criterion with
    | key key =>
        obtain ⟨also, other, field, there, member⟩ := spelled
        cases keys.symm.trans field
        cases held.symm.trans there
        rw [Table.Holds, single, List.mem_singleton] at member
        subst member
        obtain ⟨value, read⟩ := Option.isSome_iff_exists.mp has
        exact ⟨value, read, (reached.parted t.handle part live).ne_nil_of_get? read⟩
    | value value =>
        obtain ⟨also, other, field, -⟩ := spelled
        exact nomatch (unset (by simp)).symm.trans field
    | metatable ref => exact nomatch (unset (by simp)).symm.trans spelled
    | _ => trivial
  · intro member
    cases (searched.exact _).mp member with
    | table there meets =>
        cases given.symm.trans there
        have listed : .string "Name" ∈ items.array.toList := single ▸ List.mem_singleton_self _
        obtain ⟨value, read, -⟩ := meets (.key (.string "Name")) ⟨list, items, keys, held, listed⟩
        rw [read] at lacks
        exact Bool.false_ne_true lacks

end HookMachine
