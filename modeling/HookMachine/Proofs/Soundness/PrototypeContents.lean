import HookMachine.Proofs.Collection.Reachability

/-!
What the operations of the prototype store do to the references behind a prototype: an
insertion leaves those handed out before alone, and overwriting a constant brings in nothing
but the new value.
-/

namespace HookMachine.PrototypeStore

variable {store : PrototypeStore} {ref target : PrototypeRef} {p : Prototype} {value : Value}

theorem get_insert_of_ne (p : Prototype) (distinct : ref.index ≠ store.prototypes.size)
    : (store.insert p).2.get ref = store.get ref := by
  simp [get, insert, Array.getD_eq_getD_getElem?, Array.getElem?_push, distinct]

theorem get_insert_of_lt (p : Prototype) (bound : ref.index < store.prototypes.size)
    : (store.insert p).2.get ref = store.get ref :=
  get_insert_of_ne p (Nat.ne_of_lt bound)

theorem get_insert_self (store : PrototypeStore) (p : Prototype)
    : (store.insert p).2.get (store.insert p).1
      = { p with nested := p.nested.filter fun child => child.index < store.prototypes.size } := by
  simp [get, insert, Array.getD_eq_getD_getElem?]

/-- What is nested in a prototype was handed out if the prototype was. -/
theorem Nests.bound {size : Nat} (nests : store.Nests ref target) (bound : ref.index < size)
    : target.index < size := by
  induction nests with
  | self => exact bound
  | deeper member _ ih => exact ih (Nat.lt_trans (nested_lt member) bound)

theorem nests_of_insert (p : Prototype) (nests : (store.insert p).2.Nests ref target)
    (bound : ref.index < store.prototypes.size)
    : store.Nests ref target := by
  induction nests with
  | self => exact .self _
  | deeper member _ ih =>
      rw [get_insert_of_lt p bound] at member
      exact .deeper member (ih (Nat.lt_trans (nested_lt member) bound))

/-- An insertion leaves the references of prototypes handed out before as they are. -/
theorem mem_references_of_insert (p : Prototype)
    (member : value ∈ (store.insert p).2.references ref)
    (bound : ref.index < store.prototypes.size)
    : value ∈ store.references ref := by
  obtain ⟨target, nests, constant, reference⟩ := mem_references.mp member
  have nests := nests_of_insert p nests bound
  rw [get_insert_of_lt p (nests.bound bound)] at constant
  exact mem_references.mpr ⟨target, nests, constant, reference⟩

/-- The references of a new prototype are its own and those of what it nests. -/
theorem mem_references_insert (p : Prototype)
    (member : value ∈ (store.insert p).2.references (store.insert p).1)
    : value ∈ p.constants ∨ ∃ child ∈ p.nested, value ∈ (store.insert p).2.references child := by
  obtain ⟨target, nests, constant, reference⟩ := mem_references.mp member
  cases nests with
  | self =>
      rw [get_insert_self] at constant
      exact .inl constant
  | deeper nested below =>
      rw [get_insert_self, Array.mem_filter] at nested
      exact .inr ⟨_, nested.1, mem_references.mpr ⟨target, below, constant, reference⟩⟩

theorem get_setConstant (store : PrototypeStore) (changed ref : PrototypeRef) (index : Nat)
    (value : Value)
    : (store.setConstant changed index value).get ref
      = if ref = changed then
          { store.get ref with
            constants := (store.get ref).constants.setIfInBounds index value }
        else
          store.get ref := by
  obtain ⟨position⟩ := ref
  obtain ⟨other⟩ := changed
  simp only [get, setConstant, Array.getD_eq_getD_getElem?, Array.getElem?_modify,
    PrototypeRef.mk.injEq, eq_comm (a := other)]
  split
  · cases store.prototypes[position]? <;> simp
  · rfl

theorem nested_setConstant (store : PrototypeStore) (changed ref : PrototypeRef) (index : Nat)
    (value : Value)
    : ((store.setConstant changed index value).get ref).nested = (store.get ref).nested := by
  simp only [get, setConstant, Array.getD_eq_getD_getElem?, Array.getElem?_modify]
  split
  · cases store.prototypes[ref.index]? <;> rfl
  · rfl

theorem mem_constants_setConstant {changed : PrototypeRef} {index : Nat} {new : Value}
    (member : value ∈ ((store.setConstant changed index new).get ref).constants)
    : value = new ∨ value ∈ (store.get ref).constants := by
  simp only [get, setConstant, Array.getD_eq_getD_getElem?, Array.getElem?_modify] at member ⊢
  split at member
  · cases held : store.prototypes[ref.index]? with
    | none => simp [held] at member
    | some p =>
        simp only [held, Option.map_some, Option.getD_some] at member ⊢
        exact (Array.mem_or_eq_of_mem_setIfInBounds member).symm
  · exact .inr member

theorem nests_of_setConstant {changed : PrototypeRef} {index : Nat} {new : Value}
    (nests : (store.setConstant changed index new).Nests ref target)
    : store.Nests ref target := by
  induction nests with
  | self => exact .self _
  | deeper member _ ih => exact .deeper (nested_setConstant .. ▸ member) ih

/-- Overwriting a constant brings in no reference but the new value. -/
theorem mem_references_setConstant {changed : PrototypeRef} {index : Nat} {new : Value}
    (member : value ∈ (store.setConstant changed index new).references ref)
    : value = new ∨ value ∈ store.references ref := by
  obtain ⟨target, nests, constant, reference⟩ := mem_references.mp member
  have nests := nests_of_setConstant nests
  refine (mem_constants_setConstant constant).imp_right fun constant => ?_
  exact mem_references.mpr ⟨target, nests, constant, reference⟩

@[simp]
theorem size_setConstant (store : PrototypeStore) (changed : PrototypeRef) (index : Nat)
    (value : Value)
    : (store.setConstant changed index value).prototypes.size = store.prototypes.size := by
  simp [setConstant]

@[simp]
theorem size_insert (store : PrototypeStore) (p : Prototype)
    : (store.insert p).2.prototypes.size = store.prototypes.size + 1 := by
  simp [insert]

end HookMachine.PrototypeStore
