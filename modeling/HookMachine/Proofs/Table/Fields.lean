import HookMachine.Proofs.Table.Keys

/-!
What writing a named field does to a table: the field has the value, and every other key and all
else of the table stays as it was.
-/

namespace HookMachine

/-- Scripts find equal to a string what is that string. -/
theorem Value.beq_string {value : Value} {name : String}
    : (value == .string name) = true ↔ value = .string name := by
  cases value with
  | string other =>
      change (other == name) = true ↔ _
      rw [beq_iff_eq, Value.string.injEq]
  | _ => exact ⟨fun equal => (by cases equal), fun equal => (by cases equal)⟩

theorem Value.string_beq_of_ne {value : Value} {name : String} (other : value ≠ .string name)
    : (Value.string name == value) = false := by
  cases value with
  | string text =>
      change (name == text) = false
      exact beq_false_of_ne fun same => other (same ▸ rfl)
  | _ => rfl

namespace Table

variable {t : Table} {key value : Value} {name : String} {hash : List (Value × Value)}

-----------------------------------------------------------------------------------------
-- The write protection has no part in what is written
-----------------------------------------------------------------------------------------

theorem absorb_readOnly (fuel : Nat) (t : Table) (readOnly : Bool)
    : absorb fuel { t with readOnly } = { absorb fuel t with readOnly } := by
  induction fuel generalizing t with
  | zero => rfl
  | succ fuel ih =>
      unfold absorb
      dsimp only
      split
      · rfl
      · rename_i value _
        exact ih { t with
          array := t.array.push value
          hash := t.hash.filter fun field => index? field.1 != some (t.array.size + 1) }

theorem set_readOnly (t : Table) (key value : Value) (readOnly : Bool)
    : ({ t with readOnly } : Table).set key value = { t.set key value with readOnly } := by
  unfold set setHash
  cases index? key with
  | none =>
      dsimp only
      split <;> rfl
  | some n =>
      dsimp only
      split
      · exact absorb_readOnly _ { t with array := t.array.push value } readOnly
      · split
        · rfl
        · split <;> rfl

/-- A write with the protection lifted and put back is the write alone. -/
theorem set_unprotected (t : Table) (key value : Value)
    : { ({ t with readOnly := false } : Table).set key value with readOnly := t.readOnly }
      = t.set key value := by
  rw [set_readOnly]
  exact (set_readOnly t key value t.readOnly).symm

-----------------------------------------------------------------------------------------
-- Fields of the hash part
-----------------------------------------------------------------------------------------

theorem lookup_store_self (name : String) (value : Value) (hash : List (Value × Value))
    : lookup (.string name) (store (.string name) value hash) = some value := by
  rw [lookup_store, if_pos (Value.beq_string.mpr rfl)]

/-- Storing a named field leaves the others. -/
theorem lookup_store_other (other : key ≠ .string name) (value : Value)
    (hash : List (Value × Value))
    : lookup key (store (.string name) value hash) = lookup key hash := by
  rw [lookup_store, Value.string_beq_of_ne other, if_neg Bool.false_ne_true]

theorem lookup_erase_self (name : String) (hash : List (Value × Value))
    : lookup (.string name) (erase (.string name) hash) = none := by
  rw [lookup_erase, if_pos (Value.beq_string.mpr rfl)]

theorem lookup_erase_other (other : key ≠ .string name) (hash : List (Value × Value))
    : lookup key (erase (.string name) hash) = lookup key hash := by
  rw [lookup_erase, Value.string_beq_of_ne other, if_neg Bool.false_ne_true]

-----------------------------------------------------------------------------------------
-- Named fields of a table
-----------------------------------------------------------------------------------------

/-- What a written field reads as. -/
theorem get?_set_self (t : Table) (name : String) (value : Value)
    : Value.orNil ((t.set (.string name) value).get? (.string name)) = value := by
  change Value.orNil (lookup (.string name) (t.setHash (.string name) value).hash) = value
  unfold setHash
  split
  · rename_i empty
    rw [lookup_erase_self]
    cases value <;> simp_all [Value.isNil, Value.orNil]
  · rw [lookup_store_self]
    rfl

/-- Writing a field leaves every other key alone. -/
theorem get?_set_other (other : key ≠ .string name) (t : Table) (value : Value)
    : (t.set (.string name) value).get? key = t.get? key := by
  have hash : lookup key (t.setHash (.string name) value).hash = lookup key t.hash := by
    unfold setHash
    split
    · exact lookup_erase_other other t.hash
    · exact lookup_store_other other value t.hash
  have array : (t.setHash (.string name) value).array = t.array := by
    unfold setHash
    split <;> rfl
  change (t.setHash (.string name) value).get? key = _
  unfold get?
  rw [hash, array]

theorem metatable_set (t : Table) (name : String) (value : Value)
    : (t.set (.string name) value).metatable = t.metatable := by
  change (t.setHash (.string name) value).metatable = _
  unfold setHash
  split <;> rfl

theorem readOnly_set (t : Table) (name : String) (value : Value)
    : (t.set (.string name) value).readOnly = t.readOnly := by
  change (t.setHash (.string name) value).readOnly = _
  unfold setHash
  split <;> rfl

end Table
end HookMachine
