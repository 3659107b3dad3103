import HookMachine.Instruction
import HookMachine.Value

/-!
Function prototypes: the code and constants that closures are made from. Prototypes are
shared, so they live in a store of their own and closures name them by reference; a
constant overwritten in the store is seen by every closure over the prototype.
-/

namespace HookMachine

/-- Reference to a prototype of the store. -/
structure PrototypeRef where
  index : Nat
deriving DecidableEq, Inhabited, Repr

/-- The template of a function. -/
structure Prototype where
  name : Option String := none
  /-- The chunk that the function belongs to. -/
  source : String := "=host"
  /-- The line that the function was declared on. -/
  line : UInt32 := 0
  code : Array Instruction := #[]
  constants : Array Value := #[]
  nested : Array PrototypeRef := #[]
  parameters : UInt8 := 0
  /-- Whether arguments beyond the parameters are kept. -/
  variadic : Bool := false
  /-- How many registers an activation starts with. -/
  window : UInt8 := 2
  /-- How many captured variables a closure over the prototype has. -/
  upvalues : UInt8 := 0
deriving Inhabited

/-- What can be said about a prototype without its code. -/
structure PrototypeInfo where
  name : Option String
  parameters : Nat
  variadic : Bool
  constants : Nat
  nested : Nat
  upvalues : Nat
  line : Nat
deriving DecidableEq, Repr

/-- The description of a prototype. -/
def Prototype.info (p : Prototype) : PrototypeInfo where
  name := p.name
  parameters := p.parameters.toNat
  variadic := p.variadic
  constants := p.constants.size
  nested := p.nested.size
  upvalues := p.upvalues.toNat
  line := p.line.toNat

/-- A prototype nests only prototypes that stand before it. -/
def Prototype.Ordered (prototypes : Array Prototype) : Prop :=
  ∀ (index : Nat) (p : Prototype),
    prototypes[index]? = some p → ∀ child ∈ p.nested, child.index < index

namespace Prototype.Ordered

variable {prototypes : Array Prototype}

theorem empty : Ordered #[] := by
  simp [Ordered]

/-- A new prototype stays in order once it nests nothing that comes later. -/
theorem push (ordered : Ordered prototypes) (p : Prototype)
    : Ordered
        (prototypes.push
          { p with nested := p.nested.filter fun child => child.index < prototypes.size }) := by
  intro index q held
  rw [Array.getElem?_push] at held
  split at held
  · rename_i last
    intro child member
    rw [← Option.some.inj held, Array.mem_filter] at member
    simpa [last] using member.2
  · exact ordered index q held

/-- Constants have nothing to do with the order. -/
theorem setConstant (ordered : Ordered prototypes) (changed index : Nat) (value : Value)
    : Ordered
        (prototypes.modify changed fun p =>
          { p with constants := p.constants.setIfInBounds index value }) := by
  intro other q held
  rw [Array.getElem?_modify] at held
  split at held
  · obtain ⟨p, before, rfl⟩ := Option.map_eq_some_iff.mp held
    exact ordered other p before
  · exact ordered other q held

end Prototype.Ordered

/-- All prototypes made so far. A prototype nests only prototypes made before it. -/
structure PrototypeStore where
  prototypes : Array Prototype := #[]
  ordered : Prototype.Ordered prototypes := by exact .empty

namespace PrototypeStore

instance : Inhabited PrototypeStore := ⟨{}⟩

/-- The prototype behind a reference; one that the store never handed out reads as empty. -/
def get (store : PrototypeStore) (ref : PrototypeRef) : Prototype :=
  store.prototypes.getD ref.index {}

theorem nested_lt {store : PrototypeStore} {ref child : PrototypeRef}
    (member : child ∈ (store.get ref).nested)
    : child.index < ref.index := by
  unfold get at member
  rw [Array.getD_eq_getD_getElem?] at member
  rcases held : store.prototypes[ref.index]? with _ | p
  · simp [held] at member
  · exact store.ordered _ p held child (by simpa [held] using member)

/-- Adds a prototype. What it nests was handed out before; other references have no meaning
and are left out.
-/
def insert (store : PrototypeStore) (p : Prototype) : PrototypeRef × PrototypeStore :=
  (⟨store.prototypes.size⟩,
    { prototypes :=
        store.prototypes.push
          { p with nested := p.nested.filter fun child => child.index < store.prototypes.size }
      ordered := store.ordered.push p })

/-- Overwrites the constant at a position that the prototype has. -/
def setConstant (store : PrototypeStore) (ref : PrototypeRef) (index : Nat) (value : Value)
    : PrototypeStore where
  prototypes :=
    store.prototypes.modify ref.index fun p =>
      { p with constants := p.constants.setIfInBounds index value }
  ordered := store.ordered.setConstant ref.index index value

/-- The references among the constants of a prototype and of all prototypes nested in it,
directly or through others. Nesting goes to earlier prototypes only, so it ends.
-/
def references (store : PrototypeStore) (ref : PrototypeRef) : List Value :=
  let p := store.get ref
  p.constants.toList.filter Value.isReference
    ++ p.nested.attach.toList.flatMap fun ⟨child, _⟩ => store.references child
termination_by ref.index
decreasing_by exact nested_lt ‹_›

end PrototypeStore
end HookMachine
