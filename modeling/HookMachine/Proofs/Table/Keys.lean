import HookMachine.Proofs.Number.Canonical
import HookMachine.Table

/-!
Equality of keys and what it means for the hash part of a table. Equality takes two keys for the
same wherever either of them does, and only NaN is not equal to itself; a key that is a positive
integer is equal to no other integer.
-/

namespace HookMachine

variable {a b c key value : Value} {index : Nat}

namespace Value

-----------------------------------------------------------------------------------------
-- Equality
-----------------------------------------------------------------------------------------

/-- Whether the value is the number that is not equal to itself. -/
def isNaN : Value → Bool
  | number x => x.isNaN
  | _ => false

/-- Equal values have one kind, and are the same unless they are numbers. -/
theorem beq_cases (equal : (a == b) = true)
    : a = b ∨ ∃ x y, a = .number x ∧ b = .number y ∧ (x == y) = true := by
  change Value.equal a b = true at equal
  cases a <;> cases b <;> simp_all [Value.equal]

theorem beq_self_iff : (a == a) = true ↔ a.isNaN = false := by
  change Value.equal a a = true ↔ _
  cases a with
  | number x => exact Number.beq_self
  | _ => simp [Value.equal, isNaN]

theorem beq_symm (equal : (a == b) = true) : (b == a) = true := by
  rcases beq_cases equal with rfl | ⟨x, y, rfl, rfl, same⟩
  · exact equal
  · exact Number.beq_symm same

theorem beq_trans (first : (a == b) = true) (second : (b == c) = true) : (a == c) = true := by
  rcases beq_cases first with rfl | ⟨x, y, rfl, rfl, left⟩
  · exact second
  · rcases beq_cases second with rfl | ⟨y', z, same, rfl, right⟩
    · exact first
    · cases same
      exact Number.beq_trans left right

/-- Equal keys are equal to the same keys. -/
theorem beq_congr (equal : (a == b) = true) (key : Value) : (a == key) = (b == key) :=
  Bool.eq_iff_iff.mpr ⟨beq_trans (beq_symm equal), beq_trans equal⟩

end Value

namespace Table

-----------------------------------------------------------------------------------------
-- Keys of the array part
-----------------------------------------------------------------------------------------

theorem index?_congr (equal : (a == b) = true) : index? a = index? b := by
  rcases Value.beq_cases equal with rfl | ⟨x, y, rfl, rfl, same⟩
  · rfl
  · exact Number.toIndex?_congr same

/-- A positive integer is one key. -/
theorem beq_of_index? (left : index? a = some index) (right : index? b = some index)
    : (a == b) = true := by
  cases a <;> cases b <;> simp only [index?, reduceCtorEq] at left right
  exact Number.beq_of_toIndex? left right

theorem index?_pos (found : index? a = some index) : 0 < index := by
  cases a <;> simp only [index?, reduceCtorEq] at found
  exact (Number.toIndex?_eq_some.mp found).1

-----------------------------------------------------------------------------------------
-- Fields of the hash part
-----------------------------------------------------------------------------------------

variable {hash : List (Value × Value)} {field : Value × Value}

/-- A value that is stored is read under every equal key, and under no other; by induction over
the fields.
-/
theorem lookup_store (a key value : Value) (hash : List (Value × Value))
    : lookup a (store key value hash) = if key == a then some value else lookup a hash := by
  induction hash with
  | nil => cases equal : key == a <;> simp [store, lookup, equal]
  | cons field rest ih =>
      unfold store
      split
      · rename_i named
        rw [← Value.beq_congr named]
        cases equal : field.1 == a <;> simp [lookup, equal]
      · rename_i other
        cases found : field.1 == a with
        | false => simpa [lookup, found] using ih
        | true =>
            have apart : (key == a) = false := by
              refine Bool.eq_false_iff.mpr fun equal => other ?_
              exact Value.beq_trans found (Value.beq_symm equal)
            simp [lookup, found, apart]

/-- Fields that are not under an equal key may be left out, by induction over the fields. -/
theorem lookup_filter {keep : Value × Value → Bool}
    (kept : ∀ field ∈ hash, (field.1 == a) = true → keep field = true)
    : lookup a (hash.filter keep) = lookup a hash := by
  induction hash with
  | nil => rfl
  | cons field rest ih =>
      have rest_kept := ih fun other member => kept other (.tail _ member)
      cases found : field.1 == a with
      | true => simp [lookup, kept field (.head _) found, found]
      | false => cases held : keep field <;> simpa [lookup, held, found] using rest_kept

/-- A field that is taken out is read under no equal key, and every other one still is. -/
theorem lookup_erase (a key : Value) (hash : List (Value × Value))
    : lookup a (erase key hash) = if key == a then none else lookup a hash := by
  split
  · rename_i equal
    have none_left : ∀ field ∈ erase key hash, ¬(field.1 == a) = true := by
      intro field member found
      have gone := (List.mem_filter.mp member).2
      rw [Value.beq_trans found (Value.beq_symm equal)] at gone
      cases gone
    rw [lookup, List.find?_eq_none.mpr none_left]
    rfl
  · rename_i other
    refine lookup_filter fun field _ found => ?_
    rw [Bool.not_eq_true']
    exact Bool.eq_false_iff.mpr fun named => other (Value.beq_trans (Value.beq_symm named) found)

/-- A field is read under its key if no other is. -/
theorem lookup_of_mem (distinct : hash.Pairwise fun first second => (first.1 == second.1) = false)
    (member : field ∈ hash) (found : (field.1 == a) = true)
    : lookup a hash = some field.2 := by
  induction hash with
  | nil => cases member
  | cons first rest ih =>
      obtain ⟨apart, distinct⟩ := List.pairwise_cons.mp distinct
      rcases List.mem_cons.mp member with rfl | member
      · simp [lookup, found]
      · have other : (first.1 == a) = false := by
          refine Bool.eq_false_iff.mpr fun equal => ?_
          exact absurd (Value.beq_trans equal (Value.beq_symm found)) (by simp [apart _ member])
        simpa [lookup, other] using ih distinct member

theorem exists_mem_of_lookup (found : lookup a hash = some value)
    : ∃ key, (key == a) = true ∧ (key, value) ∈ hash := by
  obtain ⟨field, first, rfl⟩ := Option.map_eq_some_iff.mp found
  have equal := List.find?_some (p := fun field : Value × Value => field.1 == a) first
  exact ⟨field.1, equal, List.mem_of_find?_eq_some first⟩

end Table
end HookMachine
