import HookMachine.Proofs.Number.Counting
import HookMachine.Proofs.Soundness.TableContents
import HookMachine.Proofs.Table.Keys
import Mathlib.Data.List.Induction

/-!
A table is a finite map. Whatever is written to it in whatever order, the two parts never hold
one key twice, and each key has the value that was last written under a key equal to it.
-/

namespace HookMachine.Table

variable {t : Table} {a key value : Value} {n slack : Nat}

-----------------------------------------------------------------------------------------
-- Reading the array part
-----------------------------------------------------------------------------------------

/-- What is read of a key that has been set: nothing if it was to nil. -/
def present (value : Value) : Option Value :=
  if value.isNil then none else some value

/-- The value in a slot of the array part, unless it is a hole. -/
def cell (array : Array Value) (slot : Nat) : Option Value :=
  array[slot]?.filter fun value => !value.isNil

theorem cell_eq_some {array : Array Value} {slot : Nat}
    : cell array slot = some value ↔ array[slot]? = some value ∧ value.isNil = false := by
  simp [cell, Option.filter_eq_some_iff]

theorem cell_eq_none {array : Array Value} {slot : Nat} (outside : array.size ≤ slot)
    : cell array slot = none := by
  rw [cell, Array.getElem?_eq_none outside]
  rfl

theorem cell_push {array : Array Value} {slot : Nat} (filled : value.isNil = false)
    : cell (array.push value) slot = if slot = array.size then some value else cell array slot := by
  unfold cell
  rw [Array.getElem?_push]
  split <;> simp [filled]

theorem cell_setIfInBounds {array : Array Value} {index slot : Nat} (bound : index < array.size)
    : cell (array.setIfInBounds index value) slot
      = if index = slot then present value else cell array slot := by
  unfold cell
  rw [Array.getElem?_setIfInBounds]
  split
  · cases hole : value.isNil <;> simp [present, hole]
  · rfl

/-- Cutting off holes leaves an array that does not end in one and has the same values. -/
theorem popWhile_isNil (array : Array Value)
    : (∀ value, (array.popWhile Value.isNil).back? = some value → value.isNil = false)
      ∧ (array.popWhile Value.isNil).size ≤ array.size
      ∧ ∀ slot, cell (array.popWhile Value.isNil) slot = cell array slot := by
  fun_induction Array.popWhile Value.isNil array with
  | case1 array occupied hole ih =>
      obtain ⟨filled, shorter, same⟩ := ih
      rw [Array.size_pop] at shorter
      refine ⟨filled, by omega, fun slot => (same slot).trans ?_⟩
      -- The slot that is cut off is a hole.
      unfold cell
      rw [Array.getElem?_pop]
      split
      · rfl
      · rename_i cut
        by_cases last : slot = array.size - 1
        · subst last
          rw [Array.getElem?_eq_getElem (by omega)]
          simp [Option.filter, hole]
        · rw [Array.getElem?_eq_none (by omega)]
  | case2 array occupied kept =>
      refine ⟨fun value last => ?_, Nat.le_refl _, fun _ => rfl⟩
      rw [Array.back?_eq_getElem?, Array.getElem?_eq_getElem (by omega), Option.some_inj] at last
      exact last ▸ Bool.eq_false_iff.mpr kept
  | case3 array empty =>
      refine ⟨fun value last => ?_, Nat.le_refl _, fun _ => rfl⟩
      rw [Array.back?_eq_getElem?, Array.getElem?_eq_none (by omega)] at last
      cases last

/-- The value of a key that is an index of the array part, unless there is a hole. -/
def indexed (array : Array Value) (key : Value) : Option Value :=
  (index? key).bind fun n => cell array (n - 1)

theorem indexed_eq_none {array : Array Value}
    (outside : ∀ n, index? a = some n → array.size < n)
    : indexed array a = none := by
  rw [indexed, Option.bind_eq_none_iff]
  exact fun n index => cell_eq_none (by have := outside n index; omega)

-----------------------------------------------------------------------------------------
-- The two parts
-----------------------------------------------------------------------------------------

/-- The parts of a table divide its keys: integers of the hash part lie above the array part, by
`slack` at least.
-/
structure Parted (slack : Nat) (t : Table) : Prop where
  /-- The array part does not end in a hole. -/
  filled : ∀ value, t.array.back? = some value → value.isNil = false
  /-- Every index is a number. -/
  bound : t.array.size ≤ 2 * Number.fractionValues
  above : ∀ field ∈ t.hash, ∀ n, index? field.1 = some n → t.array.size + slack < n
  distinct : t.hash.Pairwise fun first second => (first.1 == second.1) = false
  /-- Every key is found again. -/
  found : ∀ field ∈ t.hash, (field.1 == field.1) = true
  stored : ∀ field ∈ t.hash, field.2.isNil = false

theorem parted_empty : ({} : Table).Parted 1 where
  filled := by simp
  bound := by decide
  above := by simp
  distinct := .nil
  found := by simp
  stored := by simp

theorem Parted.loosen (parted : t.Parted slack) : t.Parted 0 :=
  { parted with
    above := fun field member n place =>
      Nat.lt_of_le_of_lt (Nat.le_add_right ..) (parted.above field member n place) }

/-- Keys of the array part are not in the hash part. -/
theorem Parted.lookup_eq_none (parted : t.Parted slack) (index : index? a = some n)
    (inside : n ≤ t.array.size + slack)
    : lookup a t.hash = none := by
  rw [lookup, Option.map_eq_none_iff, List.find?_eq_none]
  intro field member equal
  have := parted.above field member n ((index?_congr equal).trans index)
  omega

/-- A key is read in the array part, and else in the hash part. -/
theorem Parted.get?_eq (parted : t.Parted slack) (a : Value)
    : t.get? a = (indexed t.array a).or (lookup a t.hash) := by
  unfold get? indexed
  cases index : index? a with
  | none => rfl
  | some n =>
      have positive := index?_pos index
      dsimp only [Option.bind_some]
      split
      · rename_i inside
        rw [parted.lookup_eq_none index (by omega), Option.or_none]
        rfl
      · rw [cell_eq_none (by omega), Option.none_or]

-----------------------------------------------------------------------------------------
-- Writing the hash part
-----------------------------------------------------------------------------------------

/-- Keys stay different, by induction over the fields. -/
theorem pairwise_store {hash : List (Value × Value)}
    (distinct : hash.Pairwise fun first second => (first.1 == second.1) = false)
    : (store key value hash).Pairwise fun first second => (first.1 == second.1) = false := by
  induction hash with
  | nil => exact List.pairwise_singleton _ _
  | cons field rest ih =>
      obtain ⟨apart, distinct⟩ := List.pairwise_cons.mp distinct
      unfold store
      split
      · exact List.pairwise_cons.mpr ⟨apart, distinct⟩
      · rename_i other
        refine List.pairwise_cons.mpr ⟨fun second member => ?_, ih distinct⟩
        rcases mem_store member with ⟨same | ⟨_, old, listed, same⟩, _⟩ | old
        · exact same ▸ Bool.eq_false_iff.mpr other
        · exact same ▸ apart old listed
        · exact apart second old

/-- What a write to the hash part leaves parted: a key that is stored lies above the array part. -/
theorem Parted.setHash (parted : t.Parted slack) (found : key.isNaN = false)
    (above : value.isNil = false → ∀ n, index? key = some n → t.array.size + slack < n)
    : (t.setHash key value).Parted slack := by
  unfold Table.setHash
  split
  · have kept {field : Value × Value} (member : field ∈ erase key t.hash) : field ∈ t.hash :=
      (List.mem_filter.mp member).1
    exact ⟨parted.filled, parted.bound, fun field member => parted.above field (kept member),
      parted.distinct.filter _, fun field member => parted.found field (kept member),
      fun field member => parted.stored field (kept member)⟩
  · rename_i filled
    rw [Bool.not_eq_true] at filled
    refine ⟨parted.filled, parted.bound, fun field member n index => ?_, ?_,
      fun field member => ?_, fun field member => ?_⟩
    · rcases mem_store member with ⟨same | ⟨equal, _⟩, _⟩ | old
      · exact above filled n (same ▸ index)
      · exact above filled n ((index?_congr equal).symm.trans index)
      · exact parted.above field old n index
    · exact pairwise_store parted.distinct
    · rcases mem_store member with ⟨same | ⟨equal, _⟩, _⟩ | old
      · rw [same]
        exact Value.beq_self_iff.mpr found
      · exact Value.beq_trans equal (Value.beq_symm equal)
      · exact parted.found field old
    · rcases mem_store member with ⟨_, same⟩ | old
      · exact same ▸ filled
      · exact parted.stored field old

theorem array_setHash (t : Table) (key value : Value)
    : (t.setHash key value).array = t.array := by
  unfold setHash
  split <;> rfl

theorem lookup_setHash (t : Table) (key value a : Value)
    : lookup a (t.setHash key value).hash
      = if key == a then present value else lookup a t.hash := by
  unfold setHash
  split
  · rename_i hole
    rw [lookup_erase, present, if_pos hole]
  · rename_i filled
    rw [lookup_store, present, if_neg filled]

/-- A write to the hash part is read under equal keys. -/
theorem Parted.get?_setHash (parted : t.Parted slack) (after : (t.setHash key value).Parted slack)
    (outside : ∀ n, index? key = some n → t.array.size < n) (a : Value)
    : (t.setHash key value).get? a = if key == a then present value else t.get? a := by
  rw [after.get?_eq, parted.get?_eq, array_setHash, lookup_setHash]
  split
  · rename_i equal
    rw [indexed_eq_none fun n index => outside n ((index?_congr equal).trans index), Option.none_or]
  · rfl

-----------------------------------------------------------------------------------------
-- Writing the array part
-----------------------------------------------------------------------------------------

/-- The array part with the slot of an index overwritten, and the holes at its end cut off. -/
def overwritten (t : Table) (n : Nat) (value : Value) : Table :=
  { t with array := (t.array.setIfInBounds (n - 1) value).popWhile Value.isNil }

/-- A write within the array part is read under equal keys. -/
theorem Parted.overwritten (parted : t.Parted slack) (index : index? key = some n)
    (inside : n ≤ t.array.size) (value : Value)
    : (t.overwritten n value).Parted slack
      ∧ ∀ a, (t.overwritten n value).get? a = if key == a then present value else t.get? a := by
  obtain ⟨filled, shorter, same⟩ := popWhile_isNil (t.array.setIfInBounds (n - 1) value)
  rw [Array.size_setIfInBounds] at shorter
  have positive := index?_pos index
  have after : (t.overwritten n value).Parted slack := by
    refine ⟨filled, shorter.trans parted.bound, fun field member other place => ?_,
      parted.distinct, parted.found, parted.stored⟩
    exact Nat.lt_of_le_of_lt (Nat.add_le_add_right shorter slack)
      (parted.above field member other place)
  refine ⟨after, fun a => ?_⟩
  rw [after.get?_eq, parted.get?_eq]
  change (indexed (Array.popWhile _ _) a).or (lookup a t.hash) = _
  unfold indexed
  simp only [same, cell_setIfInBounds (show n - 1 < t.array.size by omega)]
  split
  · rename_i equal
    have place := (index?_congr equal).symm.trans index
    rw [place, Option.bind_some, if_pos rfl, parted.lookup_eq_none place (by omega), Option.or_none]
  · rename_i other
    cases place : index? a with
    | none => rfl
    | some other_index =>
        have := index?_pos place
        have apart : n - 1 ≠ other_index - 1 := by
          intro slots
          refine other (beq_of_index? index (place.trans ?_))
          congr 1
          omega
        rw [Option.bind_some, Option.bind_some, if_neg apart]

/-- The array part with a value more, and the next index taken out of the hash part. -/
def appended (t : Table) (value : Value) : Table :=
  { t with
    array := t.array.push value
    hash := t.hash.filter fun field => index? field.1 != some (t.array.size + 1) }

/-- A value that is put at the end of the array part is read under the next index. -/
theorem Parted.appended (parted : t.Parted 0) (index : index? key = some (t.array.size + 1))
    (filled : value.isNil = false)
    : (t.appended value).Parted 0
      ∧ ∀ a, (t.appended value).get? a = if key == a then some value else t.get? a := by
  have kept {field : Value × Value} (member : field ∈ (t.appended value).hash)
      : field ∈ t.hash ∧ index? field.1 ≠ some (t.array.size + 1) := by
    simpa using List.mem_filter.mp member
  have after : (t.appended value).Parted 0 := by
    refine ⟨fun last same => ?_, ?_, fun field member n place => ?_, parted.distinct.filter _,
      fun field member => parted.found field (kept member).1,
      fun field member => parted.stored field (kept member).1⟩
    · rw [Table.appended, Array.back?_push] at same
      exact Option.some.inj same ▸ filled
    · have bound := parted.bound
      -- The index is a number, and the one after the bound is none.
      have number : t.array.size ≠ 2 * Number.fractionValues := by
        intro full
        rw [full] at index
        cases key <;> simp only [index?, reduceCtorEq] at index
        exact Number.toIndex?_ne _ index
      rw [Table.appended, Array.size_push]
      omega
    · obtain ⟨old, other⟩ := kept member
      have := parted.above field old n place
      have next : n ≠ t.array.size + 1 := fun same => other (same ▸ place)
      rw [Table.appended, Array.size_push]
      omega
  refine ⟨after, fun a => ?_⟩
  rw [after.get?_eq, parted.get?_eq]
  change (indexed (t.array.push value) a).or (lookup a (t.hash.filter _)) = _
  unfold indexed
  simp only [cell_push filled]
  split
  · rename_i equal
    rw [(index?_congr equal).symm.trans index]
    simp
  · rename_i other
    have elsewhere : index? a ≠ some (t.array.size + 1) :=
      fun place => other (beq_of_index? index place)
    rw [lookup_filter fun field _ equal => by simpa [index?_congr equal] using elsewhere]
    cases place : index? a with
    | none => rfl
    | some n =>
        have := index?_pos place
        have apart : n - 1 ≠ t.array.size := by
          intro last
          refine elsewhere (place.trans ?_)
          congr 1
          omega
        rw [Option.bind_some, Option.bind_some, if_neg apart]

/-- Moving what follows the array part out of the hash part changes nothing that is read; by
induction over the moves, which the length of the hash part bounds.
-/
theorem Parted.absorb {fuel : Nat} (parted : t.Parted 0) (enough : t.hash.length ≤ fuel)
    : (absorb fuel t).Parted 1 ∧ ∀ a, (Table.absorb fuel t).get? a = t.get? a := by
  induction fuel generalizing t with
  | zero =>
      have none_left := List.length_eq_zero_iff.mp (Nat.le_zero.mp enough)
      refine ⟨{ parted with above := fun field member => ?_ }, fun _ => rfl⟩
      change field ∈ t.hash at member
      rw [none_left] at member
      cases member
  | succ fuel ih =>
      unfold Table.absorb
      dsimp only
      split
      · rename_i missing
        rw [lookupIndex, Option.map_eq_none_iff, List.find?_eq_none] at missing
        refine ⟨{ parted with above := fun field member n place => ?_ }, fun _ => rfl⟩
        have := parted.above field member n place
        have next : n ≠ t.array.size + 1 := by
          rintro rfl
          exact missing field member (by simp [place])
        omega
      · rename_i value moved
        obtain ⟨field, first, rfl⟩ := Option.map_eq_some_iff.mp moved
        have member := List.mem_of_find?_eq_some first
        have index : index? field.1 = some (t.array.size + 1) := by
          simpa using List.find?_some first
        obtain ⟨after, reads⟩ := parted.appended index (parted.stored field member)
        have fewer : (t.appended field.2).hash.length ≤ fuel := by
          have shorter : (t.appended field.2).hash.length < t.hash.length :=
            List.length_filter_lt_length_iff_exists.mpr ⟨field, member, by simp [index]⟩
          omega
        obtain ⟨last, same⟩ := ih after fewer
        refine ⟨last, fun a => (same a).trans ((reads a).trans ?_)⟩
        split
        · rename_i equal
          have outside : ∀ n, index? a = some n → t.array.size < n := by
            intro n place
            obtain rfl := Option.some.inj ((place.symm.trans (index?_congr equal).symm).trans index)
            omega
          rw [parted.get?_eq, indexed_eq_none outside, Option.none_or,
            lookup_of_mem parted.distinct member equal]
        · rfl

-----------------------------------------------------------------------------------------
-- Setting a key
-----------------------------------------------------------------------------------------

/-- What is set is read under equal keys, and the parts stay parted. -/
theorem Parted.set (parted : t.Parted 1) (found : key.isNaN = false) (value : Value)
    : (t.set key value).Parted 1
      ∧ ∀ a, (t.set key value).get? a = if key == a then present value else t.get? a := by
  unfold Table.set
  cases index : index? key with
  | none =>
      have after : (t.setHash key value).Parted 1 :=
        parted.setHash found fun _ n place => by simp [index] at place
      exact ⟨after, parted.get?_setHash after fun n place => by simp [index] at place⟩
  | some n =>
      dsimp only
      split
      · rename_i next
        obtain ⟨rfl, filled⟩ := next
        rw [Bool.not_eq_true] at filled
        have alone : ({ t with array := t.array.push value } : Table) = t.appended value := by
          unfold Table.appended
          congr 1
          refine (List.filter_eq_self.mpr fun field member => ?_).symm
          simp only [bne_iff_ne, ne_eq]
          intro place
          exact absurd (parted.above field member _ place) (Nat.lt_irrefl _)
        have loose : t.Parted 0 := parted.loosen
        obtain ⟨after, reads⟩ := loose.appended index filled
        have fewer : (t.appended value).hash.length ≤ t.hash.length := List.length_filter_le ..
        obtain ⟨last, same⟩ := after.absorb fewer
        rw [alone]
        refine ⟨last, fun a => (same a).trans ((reads a).trans ?_)⟩
        rw [present, filled]
        rfl
      · rename_i other
        split
        · rename_i inside
          exact parted.overwritten index inside value
        · rename_i outside
          have above : value.isNil = false → ∀ m, index? key = some m → t.array.size + 1 < m := by
            intro filled m place
            obtain rfl := Option.some.inj (index.symm.trans place)
            have next : n ≠ t.array.size + 1 := fun next => other ⟨next, by simp [filled]⟩
            omega
          have beyond : ∀ m, index? key = some m → t.array.size < m := by
            intro m place
            obtain rfl := Option.some.inj (index.symm.trans place)
            omega
          have after := parted.setHash found above
          exact ⟨after, parted.get?_setHash after beyond⟩

-----------------------------------------------------------------------------------------
-- Listing the fields
-----------------------------------------------------------------------------------------

variable {writes : List (Value × Value)}

/-- The slots of the array part have the indices as keys. -/
theorem Parted.index?_ofNat (parted : t.Parted slack) {slot : Nat} (inside : slot < t.array.size)
    : index? (.ofNat (slot + 1)) = some (slot + 1) :=
  Number.toIndex?_toFloat (Nat.succ_pos slot) (Nat.le_trans inside parted.bound)

/-- A field is listed if it is in a slot of the array part or in the hash part. -/
theorem mem_entries
    : (key, value) ∈ t.entries
      ↔ (∃ slot < t.array.size, key = .ofNat (slot + 1) ∧ cell t.array slot = some value)
        ∨ (key, value) ∈ t.hash := by
  rw [entries, List.mem_append, List.mem_filter, List.mem_map]
  refine or_congr_left ⟨?_, ?_⟩
  · rintro ⟨⟨slot, inside, same⟩, filled⟩
    obtain ⟨rfl, rfl⟩ := Prod.mk.inj same
    have bound := List.mem_range.mp inside
    refine ⟨slot, bound, rfl, cell_eq_some.mpr ⟨?_, by simpa using filled⟩⟩
    simp [bound]
  · rintro ⟨slot, bound, rfl, held⟩
    obtain ⟨held, filled⟩ := cell_eq_some.mp held
    refine ⟨⟨slot, List.mem_range.mpr bound, ?_⟩, by simp [filled]⟩
    simp [Array.getD_eq_getD_getElem?, held]

/-- What is listed is read under its key. -/
theorem Parted.get?_of_mem (parted : t.Parted 1) (member : (key, value) ∈ t.entries)
    : t.get? key = some value := by
  rw [parted.get?_eq]
  rcases mem_entries.mp member with ⟨slot, inside, rfl, held⟩ | member
  · rw [indexed, parted.index?_ofNat inside, Option.bind_some, Nat.add_sub_cancel, held]
    rfl
  · have outside : ∀ n, index? key = some n → t.array.size < n := fun n place => by
      have := parted.above _ member n place
      omega
    rw [indexed_eq_none outside, Option.none_or]
    exact lookup_of_mem parted.distinct member (parted.found _ member)

/-- What is read under a key is listed under an equal one. -/
theorem Parted.exists_mem_of_get? (parted : t.Parted 1) (read : t.get? key = some value)
    : ∃ same, (same == key) = true ∧ (same, value) ∈ t.entries := by
  rw [parted.get?_eq] at read
  rcases Option.or_eq_some_iff.mp read with read | ⟨-, read⟩
  · obtain ⟨n, place, held⟩ := Option.bind_eq_some_iff.mp read
    have positive := index?_pos place
    have inside : n - 1 < t.array.size := (Array.getElem?_eq_some_iff.mp (cell_eq_some.mp held).1).1
    have same := parted.index?_ofNat inside
    rw [Nat.sub_add_cancel positive] at same
    refine ⟨.ofNat n, beq_of_index? same place, mem_entries.mpr (.inl ⟨n - 1, inside, ?_, held⟩)⟩
    rw [Nat.sub_add_cancel positive]
  · obtain ⟨same, equal, member⟩ := exists_mem_of_lookup read
    exact ⟨same, equal, mem_entries.mpr (.inr member)⟩

/-- No key is listed twice. -/
theorem Parted.pairwise_entries (parted : t.Parted 1)
    : t.entries.Pairwise fun first second => (first.1 == second.1) = false := by
  refine List.pairwise_append.mpr ⟨.filter _ (List.pairwise_map.mpr ?_), parted.distinct, ?_⟩
  · refine List.Pairwise.imp_of_mem ?_ List.nodup_range
    intro first second left right different
    refine Bool.eq_false_iff.mpr fun equal => different ?_
    have same := index?_congr equal
    rw [parted.index?_ofNat (List.mem_range.mp left), parted.index?_ofNat (List.mem_range.mp right)]
      at same
    simpa using same
  · rintro ⟨first, value⟩ slots second hashed
    refine Bool.eq_false_iff.mpr fun equal => ?_
    obtain ⟨slot, inside, rfl⟩ : ∃ slot < t.array.size, first = .ofNat (slot + 1) := by
      obtain ⟨slot, listed, same⟩ := List.mem_map.mp (List.mem_filter.mp slots).1
      exact ⟨slot, List.mem_range.mp listed, (Prod.mk.inj same).1.symm⟩
    have := parted.above second hashed _
      ((index?_congr equal).symm.trans (parted.index?_ofNat inside))
    omega

/-- A table is empty if nothing is read of it. -/
theorem Parted.isEmpty_iff (parted : t.Parted 1)
    : t.isEmpty = true ↔ ∀ key, t.get? key = none := by
  rw [isEmpty, Bool.and_eq_true, Array.isEmpty_iff, List.isEmpty_iff]
  constructor
  · rintro ⟨array, hash⟩ key
    have slots : indexed t.array key = none :=
      indexed_eq_none fun n place => array ▸ index?_pos place
    rw [parted.get?_eq, slots, hash]
    rfl
  · intro nothing
    have unlisted {key value : Value} : (key, value) ∉ t.entries := fun member => by
      have read := parted.get?_of_mem member
      rw [nothing key] at read
      cases read
    constructor
    · -- The last slot of the array part is no hole.
      by_contra occupied
      have positive : 0 < t.array.size := Array.size_pos_iff.mpr occupied
      have last : t.array.back? = some t.array[t.array.size - 1] := by
        rw [Array.back?_eq_getElem?, Array.getElem?_eq_getElem (by omega)]
      have held : cell t.array (t.array.size - 1) = some t.array[t.array.size - 1] :=
        cell_eq_some.mpr ⟨Array.getElem?_eq_getElem (by omega), parted.filled _ last⟩
      exact unlisted (mem_entries.mpr (.inl ⟨t.array.size - 1, by omega, rfl, held⟩))
    · exact List.eq_nil_iff_forall_not_mem.mpr fun field member =>
        unlisted (mem_entries.mpr (.inr member))

-----------------------------------------------------------------------------------------
-- Tables are finite maps
-----------------------------------------------------------------------------------------

/-- The table that writes make of an empty one, the first of them first. -/
def ofWrites (writes : List (Value × Value)) : Table :=
  writes.foldl (fun t write => t.set write.1 write.2) {}

/-- The value of the last write under a key equal to `key`. -/
def lastWrite? (key : Value) (writes : List (Value × Value)) : Option Value :=
  (writes.reverse.find? fun write => write.1 == key).map (·.2)

/-- The table is the finite map that the writes make. -/
structure Represents (writes : List (Value × Value)) (t : Table) : Prop where
  get {key value : Value}
    : t.get? key = some value ↔ lastWrite? key writes = some value ∧ value ≠ .nil
  field (name : String) : t.field? name = t.get? (.string name)
  /-- Nothing is listed but what is read. -/
  listed {key value : Value} : (key, value) ∈ t.entries → t.get? key = some value
  /-- Everything that is read is listed. -/
  lists {key value : Value}
    : t.get? key = some value → ∃ same, (same == key) = true ∧ (same, value) ∈ t.entries
  once : t.entries.Pairwise fun first second => (first.1 == second.1) = false
  empty : t.isEmpty = true ↔ ∀ key, t.get? key = none

theorem present_eq_some {last : Value} : present last = some value ↔ last = value ∧ value ≠ .nil := by
  cases last <;> simp [present, Value.isNil] <;> grind

theorem lastWrite?_concat (writes : List (Value × Value)) (key value a : Value)
    : lastWrite? a (writes ++ [(key, value)])
      = if key == a then some value else lastWrite? a writes := by
  rw [lastWrite?, lastWrite?, List.reverse_append]
  cases named : key == a <;> simp [named]

/-- Writes leave the last value of each key, by induction over the writes from the last one. -/
theorem ofWrites_reads (numbers : ∀ write ∈ writes, write.1.isNaN = false)
    : (ofWrites writes).Parted 1
      ∧ ∀ key, (ofWrites writes).get? key = (lastWrite? key writes).bind present := by
  induction writes using List.reverseRecOn with
  | nil =>
      refine ⟨parted_empty, fun key => (parted_empty.get?_eq key).trans ?_⟩
      have slots : indexed ({} : Table).array key = none :=
        indexed_eq_none fun n place => index?_pos place
      rw [slots]
      rfl
  | append_singleton writes write ih =>
      obtain ⟨parted, reads⟩ := ih fun other member => numbers other (List.mem_append_left _ member)
      obtain ⟨after, same⟩ := parted.set (numbers write (by simp)) write.2
      have split : ofWrites (writes ++ [write]) = (ofWrites writes).set write.1 write.2 := by
        simp [ofWrites]
      rw [split]
      refine ⟨after, fun key => (same key).trans ?_⟩
      rw [reads, lastWrite?_concat]
      cases write.1 == key <;> rfl

/-- Whatever is written to an empty table, under whatever keys but NaN: it is the finite map of
the last values written, a nil leaving nothing.
-/
theorem represents_of_writes (numbers : ∀ write ∈ writes, write.1.isNaN = false)
    : Represents writes (ofWrites writes) := by
  obtain ⟨parted, reads⟩ := ofWrites_reads numbers
  refine ⟨?_, fun _ => rfl, parted.get?_of_mem, parted.exists_mem_of_get?, parted.pairwise_entries,
    parted.isEmpty_iff⟩
  intro key value
  rw [reads, Option.bind_eq_some_iff]
  simp only [present_eq_some]
  constructor
  · rintro ⟨last, found, rfl, filled⟩
    exact ⟨found, filled⟩
  · rintro ⟨found, filled⟩
    exact ⟨value, found, rfl, filled⟩

/-- Indices that come in from the last to the first, a hole that is made and the end that is cut
off with it, and keys of other kinds.
-/
theorem represents_of_writes_holes
    : ∃ writes : List (Value × Value),
        (∀ write ∈ writes, write.1.isNaN = false)
          ∧ Represents writes (ofWrites writes)
          ∧ (ofWrites writes).length = 1
          ∧ (ofWrites writes).get? (.number 0.5) = some (.string "half")
          ∧ ((ofWrites writes).get? (.number 3)).isNone := by
  have numbers : ∀ write ∈ [(Value.number 3, Value.string "c"), (.number 2, .string "b"),
      (.nil, .boolean true), (.number 1, .string "a"), (.number 0.5, .string "half"),
      (.number 2, .nil), (.number 3, .nil)], write.1.isNaN = false := by
    decide +kernel
  have map := represents_of_writes numbers
  refine ⟨_, numbers, map, ?_, map.get.mpr ⟨rfl, by simp⟩, ?_⟩
  · decide +kernel
  · decide +kernel

end HookMachine.Table
