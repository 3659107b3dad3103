import HookMachine.Host
import HookMachine.Proofs.Collection.Reachability

/-!
What it means that a value is still good: the object that it refers to exists. Values stay
good while code runs, since nothing is collected then; the order of machines in time is
stated by that alone.
-/

namespace HookMachine

/-- Whether a fault blames a handle that names nothing. -/
def Fault.blamesHandle : Fault → Bool
  | invalidHandle | foreignHandle => true
  | _ => false

/-- Errors that running code sees as faults. -/
class FaultLike (ε : Type) where
  toFault : ε → Fault

instance : FaultLike Fault := ⟨id⟩

instance : FaultLike Failure := ⟨Failure.toFault⟩

/-- The rules that hosts and natives keep during a run. -/
structure Rules where
  /-- Every value that they pass in refers to an object that exists. -/
  careful : Prop
  /-- They may set redirects without a hook. -/
  redirects : Prop
  /-- Faults blaming a handle that natives raise by themselves. -/
  raises : Fault → Prop

namespace Rules

variable (rules : Rules)

/-- The object behind a value exists, if the rules ask for that. -/
def Valid (m : Machine) (value : Value) : Prop :=
  rules.careful → ∀ object, value.object? = some object → m.heap.isLive object = true

/-- A prototype was handed out, and the references among its constants and those of what it
nests are valid.
-/
structure ValidPrototype (m : Machine) (ref : PrototypeRef) : Prop where
  bound : ref.index < m.prototypes.prototypes.size
  references : ∀ value ∈ m.prototypes.references ref, rules.Valid m value

/-- The variable in a cell holds a valid value. -/
def ValidCell (m : Machine) (cell : CellRef) : Prop :=
  rules.Valid m (m.cells.getD cell.index .nil)

/-- An error is none that blames a handle, unless a native raised it. -/
def Tolerates {ε : Type} [FaultLike ε] (error : ε) : Prop :=
  rules.careful → (FaultLike.toFault error).blamesHandle = true
    → rules.raises (FaultLike.toFault error)

/-- What was valid in a machine is valid in a later one, and its closures are there but for their
redirects.
-/
structure Later (m after : Machine) : Prop where
  live {object} : m.heap.isLive object = true → after.heap.isLive object = true
  closure {handle c}
    : m.heap.closures.get handle = .ok c
      → ∃ redirect, after.heap.closures.get handle = .ok { c with redirect }
  cell {cell} : rules.ValidCell m cell → rules.ValidCell after cell
  prototype {ref} : rules.ValidPrototype m ref → rules.ValidPrototype after ref

end Rules

variable {rules : Rules} {m after last : Machine}

namespace Rules

theorem Valid.of_plain {value : Value} (plain : value.object? = none) : rules.Valid m value := by
  intro _ object names
  simp [plain] at names

@[simp]
theorem valid_nil : rules.Valid m .nil :=
  .of_plain rfl

@[simp]
theorem valid_boolean (b : Bool) : rules.Valid m (.boolean b) :=
  .of_plain rfl

@[simp]
theorem valid_number (x : Float) : rules.Valid m (.number x) :=
  .of_plain rfl

@[simp]
theorem valid_string (s : String) : rules.Valid m (.string s) :=
  .of_plain rfl

@[simp]
theorem valid_ofNat (n : Nat) : rules.Valid m (.ofNat n) :=
  .of_plain rfl

theorem Valid.of_live {value : Value} {object : ObjectRef} (names : value.object? = some object)
    (live : m.heap.isLive object = true)
    : rules.Valid m value := by
  intro _ other other_names
  exact Option.some.inj (names.symm.trans other_names) ▸ live

theorem Valid.orNil {value : Option Value} (valid : ∀ held, value = some held → rules.Valid m held)
    : rules.Valid m (.orNil value) := by
  cases value with
  | none => exact valid_nil
  | some held => exact valid held rfl

/-- A constant of a valid prototype is valid. -/
theorem ValidPrototype.constant {ref : PrototypeRef} {value : Value}
    (valid : rules.ValidPrototype m ref) (member : value ∈ (m.prototypes.get ref).constants)
    : rules.Valid m value := by
  intro careful object names
  have reference : value.isReference = true := by
    cases value <;> simp_all [Value.isReference, Value.handle?, Value.object?]
  have listed := PrototypeStore.mem_references.mpr ⟨ref, .self ref, member, reference⟩
  exact valid.references value listed careful object names

/-- What a valid prototype nests is valid. -/
theorem ValidPrototype.nested {ref child : PrototypeRef} (valid : rules.ValidPrototype m ref)
    (member : child ∈ (m.prototypes.get ref).nested)
    : rules.ValidPrototype m child := by
  refine ⟨Nat.lt_trans (PrototypeStore.nested_lt member) valid.bound, fun value listed => ?_⟩
  obtain ⟨target, nests, constant⟩ := PrototypeStore.mem_references.mp listed
  exact valid.references value
    (PrototypeStore.mem_references.mpr ⟨target, .deeper member nests, constant⟩)

namespace Later

theorem refl (m : Machine) : rules.Later m m :=
  ⟨id, fun {_ c} found => ⟨c.redirect, found⟩, id, id⟩

theorem trans (first : rules.Later m after) (second : rules.Later after last)
    : rules.Later m last where
  live live := second.live (first.live live)
  closure found := by
    obtain ⟨_, found⟩ := first.closure found
    obtain ⟨redirect, found⟩ := second.closure found
    exact ⟨redirect, found⟩
  cell valid := second.cell (first.cell valid)
  prototype valid := second.prototype (first.prototype valid)

theorem valid (later : rules.Later m after) {value : Value} (good : rules.Valid m value)
    : rules.Valid after value :=
  fun careful object names => later.live (good careful object names)

theorem all (later : rules.Later m after) {values : List Value}
    (good : ∀ value ∈ values, rules.Valid m value)
    : ∀ value ∈ values, rules.Valid after value :=
  fun value member => later.valid (good value member)

/-- Where neither cells nor prototypes change, it is enough that objects stay. -/
theorem of_stay
    (tables : ∀ handle t, m.heap.tables.get handle = .ok t
      → ∃ other, after.heap.tables.get handle = .ok other)
    (closures : ∀ handle c, m.heap.closures.get handle = .ok c
      → ∃ redirect, after.heap.closures.get handle = .ok { c with redirect })
    (natives : ∀ handle n, m.heap.natives.get handle = .ok n
      → ∃ other, after.heap.natives.get handle = .ok other)
    (cells : after.cells = m.cells) (prototypes : after.prototypes = m.prototypes)
    : rules.Later m after := by
  have live {object : ObjectRef} (live : m.heap.isLive object = true)
      : after.heap.isLive object = true := by
    cases object <;> obtain ⟨held, found⟩ := Arena.contains_iff.mp live <;>
      refine Arena.contains_iff.mpr ?_
    · exact tables _ held found
    · exact (closures _ held found).imp' _ fun _ => id
    · exact natives _ held found
  have valid {value : Value} (good : rules.Valid m value) : rules.Valid after value :=
    fun careful object names => live (good careful object names)
  refine ⟨live, closures _ _, fun good => ?_, fun good => ?_⟩
  · unfold ValidCell
    rw [cells]
    exact valid good
  · refine ⟨prototypes ▸ good.bound, fun value member => ?_⟩
    exact valid (good.references value (prototypes ▸ member))

/-- Where objects do not change either, nothing has to be shown. -/
theorem of_objects (tables : after.heap.tables = m.heap.tables)
    (closures : after.heap.closures = m.heap.closures)
    (natives : after.heap.natives = m.heap.natives) (cells : after.cells = m.cells)
    (prototypes : after.prototypes = m.prototypes)
    : rules.Later m after :=
  .of_stay (fun _ t found => ⟨t, tables ▸ found⟩)
    (fun _ c found => ⟨c.redirect, closures ▸ found⟩) (fun _ n found => ⟨n, natives ▸ found⟩)
    cells prototypes

end Later
end Rules
end HookMachine
