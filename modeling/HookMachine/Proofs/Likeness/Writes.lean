import HookMachine.Proofs.Likeness.Interception
import HookMachine.Proofs.Likeness.Whole

/-!
The single writes of which every change of a machine is made up. Where everything stands for
itself, like machines make the same writes, so a likeness of machines is kept if each write keeps
it.
-/

namespace HookMachine
namespace Machine

/-- One write of an object, a cell, a prototype or a small registry; natives are made but as
`allowed`.
-/
inductive Writes (allowed : Native → Prop) : (Machine → Machine) → Prop
  | insertTable (t : Table)
    : Writes allowed fun m => { m with heap.tables := (m.heap.tables.insert t).2 }
  | insertClosure (c : Closure)
    : Writes allowed fun m => { m with heap.closures := (m.heap.closures.insert c).2 }
  | insertNative {n : Native} (allows : allowed n)
    : Writes allowed fun m => { m with heap.natives := (m.heap.natives.insert n).2 }
  | modifyTable (ref : TableRef) (change : Table → Table)
    : Writes allowed fun m => { m with heap.tables := m.heap.tables.modify ref.handle change }
  | modifyClosure (ref : ClosureRef) (change : Closure → Closure)
    : Writes allowed fun m => { m with heap.closures := m.heap.closures.modify ref.handle change }
  | pushCell (value : Value) : Writes allowed fun m => { m with cells := m.cells.push value }
  | setCell (ref : CellRef) (value : Value)
    : Writes allowed fun m => { m with cells := m.cells.setIfInBounds ref.index value }
  | insertPrototype (p : Prototype)
    : Writes allowed fun m => { m with prototypes := (m.prototypes.insert p).2 }
  | setConstant (ref : PrototypeRef) (position : Nat) (value : Value)
    : Writes allowed fun m => { m with prototypes := m.prototypes.setConstant ref position value }
  | setIdentities (change : ContextRef → IdentityRegistry → IdentityRegistry)
    : Writes allowed fun m => { m with identities := change m.context m.identities }
  | setEnabled (index : Nat) (on : Bool)
    : Writes allowed fun m =>
        { m with connections := ConnectionRegistry.setEnabled m.connections index on }
  | report (entry : String × List Value)
    : Writes allowed fun m => { m with reports := m.reports.push entry }

/-- One write of a registry that keeps values alive, or of what is retained for it. -/
inductive Records : (Machine → Machine) → Prop
  | hold (value : Value) : Records fun m => (m.hold value).2
  | letGo (guard : Guard) : Records (·.letGo guard)
  | setEnvironments (environments : EnvironmentCache) : Records ({ · with environments })
  | setHooks (hooks : HookRegistry) : Records ({ · with hooks })
  | setConnections (connections : ConnectionRegistry) : Records ({ · with connections })

end Machine

namespace Likeness

variable {ι : Type} {L : Likeness ι} (whole : L.tie.Whole)

include whole

/-- If everything stands for itself, like machines only have to stay so over the same writes. -/
theorem lawful_of_writes (reads : ∀ {i m n}, L.machines i m n → L.tie.Machines m n)
    (step : ∀ {i m n change}, Machine.Writes (fun x => L.tie.Natives x x) change
      → L.machines i m n → L.machines i (change m) (change n))
    : L.Lawful := by
  constructor
  case reads => exact reads
  case insertTable =>
    intro i m n x y alike same
    cases whole.tables.mp same
    refine ⟨step (.insertTable x) alike, ?_⟩
    rw [whole.tableRefs_eq, (reads alike).heap whole]
  case insertClosure =>
    intro i m n x y alike same
    cases (congrFun₂ whole.closures_eq x y).mp same
    refine ⟨step (.insertClosure x) alike, ?_⟩
    rw [whole.closureRefs_eq, (reads alike).heap whole]
  case insertNative =>
    intro i m n x y alike same
    cases whole.native_eq same
    refine ⟨step (.insertNative same) alike, ?_⟩
    rw [whole.nativeRefs_eq, (reads alike).heap whole]
  case modifyTable =>
    intro i m n a b change change' alike tied changed
    rw [whole.tableRefs_eq] at tied
    subst tied
    have same : change = change' := funext fun t =>
      whole.tables.mp (changed (whole.tables.mpr rfl))
    subst same
    exact step (.modifyTable a change) alike
  case modifyClosure =>
    intro i m n a b change change' alike tied changed
    rw [whole.closureRefs_eq] at tied
    rw [whole.closures_eq] at changed
    subst tied
    have same : change = change' := funext fun t => changed rfl
    subst same
    exact step (.modifyClosure a change) alike
  case pushCell =>
    intro i m n v w alike same
    cases whole.values.mp same
    exact ⟨step (.pushCell v) alike, whole.cell _⟩
  case setCell =>
    intro i m n c v w alike _ same
    cases whole.values.mp same
    exact step (.setCell c v) alike
  case insertPrototype =>
    intro i m n p q alike same
    cases (congrFun₂ whole.assembled_eq p q).mp same
    exact ⟨step (.insertPrototype p) alike, whole.prototype _⟩
  case setConstant =>
    intro i m n p v w position alike _ same
    cases whole.values.mp same
    exact step (.setConstant p position v) alike
  case setIdentities => exact fun change alike => step (.setIdentities change) alike
  case setEnabled => exact fun index on alike => step (.setEnabled index on) alike
  case report =>
    intro i m n e f alike same
    cases (congrFun₂ whole.reports_eq e f).mp same
    exact step (.report e) alike

/-- For registries the same goes. -/
theorem seamless_of_records (lawful : L.Lawful)
    (step : ∀ {i m n change}, Machine.Records change
      → L.machines i m n → L.machines i (change m) (change n))
    : L.Seamless := by
  constructor
  case toLawful => exact lawful
  case hold =>
    intro i m n v w alike same
    cases whole.values.mp same
    refine ⟨step (.hold v) alike, ?_, same⟩
    exact congrArg (fun heap => (heap.retained.insert v).1) ((lawful.reads alike).heap whole)
  case letGo =>
    intro i m n g h alike same
    cases (congrFun₂ whole.guards_eq g h).mp same
    exact step (.letGo g) alike
  case setEnvironments =>
    intro i m n c d alike same
    cases (congrFun₂ whole.environments_eq c d).mp same
    exact step (.setEnvironments c) alike
  case setHooks =>
    intro i m n r s alike same
    cases (congrFun₂ whole.hooks_eq r s).mp same
    exact step (.setHooks r) alike
  case setConnections =>
    intro i m n r s alike same
    cases (congrFun₂ whole.connections_eq r s).mp same
    exact step (.setConnections r) alike

end Likeness
end HookMachine
