import HookMachine.Proofs.Table.FiniteMap
import Mathlib.Logic.Relation

/-!
The length of a table is a border. Whatever is written, the array part does not end in a hole and
the hash part holds no key that belongs into it or right behind it, since the moving of fields
that an append sets off goes on to its end.
-/

namespace HookMachine.Table

variable {t after : Table} {key value : Value} {n : Nat} {writes : List (Value × Value)}

-----------------------------------------------------------------------------------------
-- Moving fields into the array part
-----------------------------------------------------------------------------------------

/-- One round of moving: the field under the next index goes from the hash part to the end of the
array part.
-/
def Migrates (t after : Table) : Prop :=
  ∃ value, lookup (.ofNat (t.length + 1)) t.hash = some value
    ∧ after = { t with
        array := t.array.push value
        hash := erase (.ofNat (t.length + 1)) t.hash }

/-- The rounds lead from one table to another, and there is none after that. -/
structure Settles (t after : Table) : Prop where
  /-- No sequence of rounds goes on for ever. -/
  ends : Acc (fun next before => Migrates before next) t
  rounds : Relation.ReflTransGen Migrates t after
  last : ∀ further, ¬Migrates after further

/-- Each round takes the field that it finds out of the hash part. -/
theorem Migrates.shorter (migrates : t.Migrates after)
    : after.hash.length < t.hash.length := by
  obtain ⟨value, found, rfl⟩ := migrates
  obtain ⟨field, equal, member⟩ := exists_mem_of_lookup found
  exact List.length_filter_lt_length_iff_exists.mpr ⟨_, member, by simp [equal]⟩

/-- The moving ends from every table, for the hash part has an end. -/
theorem wellFounded_migrates : WellFounded fun next before : Table => Migrates before next :=
  Subrelation.wf (fun migrates => migrates.shorter) (measure fun t : Table => t.hash.length).wf

/-- Up to the bound of exact counts, an index is what equals the count. -/
theorem index?_eq_some_iff (positive : 0 < n) (small : n ≤ 2 * Number.fractionValues)
    : index? key = some n ↔ (key == .ofNat n) = true := by
  have counted : index? (.ofNat n) = some n := Number.toIndex?_toFloat positive small
  exact ⟨fun place => beq_of_index? place counted, fun equal => (index?_congr equal).trans counted⟩

/-- A field that is found by its index is one that is found by the count. -/
theorem migrates_of_lookupIndex (small : t.length < 2 * Number.fractionValues)
    (found : lookupIndex (t.length + 1) t.hash = some value)
    : t.Migrates (t.appended value) := by
  have same (field : Value × Value)
      : (index? field.1 == some (t.length + 1)) = (field.1 == .ofNat (t.length + 1)) := by
    rw [Bool.eq_iff_iff, beq_iff_eq]
    exact index?_eq_some_iff (Nat.succ_pos _) small
  refine ⟨value, ?_, ?_⟩
  · rw [← found, lookup, lookupIndex]
    simp only [same]
  · unfold appended erase
    congr 2
    funext field
    exact congrArg Bool.not (same field)

theorem length_le_absorb (fuel : Nat) (t : Table)
    : t.length ≤ (absorb fuel t).length := by
  induction fuel generalizing t with
  | zero => exact Nat.le_refl _
  | succ fuel ih =>
      unfold absorb
      dsimp only
      split
      · exact Nat.le_refl _
      · refine Nat.le_trans ?_ (ih _)
        simp [length]

/-- Moving is done in rounds, by induction over them; only the last length has to be exact. -/
theorem migrates_absorb {fuel : Nat} (small : (absorb fuel t).length ≤ 2 * Number.fractionValues)
    : Relation.ReflTransGen Migrates t (absorb fuel t) := by
  induction fuel generalizing t with
  | zero => exact .refl
  | succ fuel ih =>
      unfold absorb at small ⊢
      dsimp only at small ⊢
      split at small
      · exact .refl
      · rename_i value found
        have longer : (t.appended value).length ≤ 2 * Number.fractionValues :=
          (length_le_absorb fuel _).trans small
        have room : t.length < 2 * Number.fractionValues := by
          rw [length, appended, Array.size_push] at longer
          exact longer
        exact .head (migrates_of_lookupIndex room found) (ih small)

-----------------------------------------------------------------------------------------
-- Borders
-----------------------------------------------------------------------------------------

/-- The length of the table is a border: there is a value at it and none behind it. -/
structure Bordered (t : Table) : Prop where
  /-- The array part does not end in a hole. -/
  filled : t.array.back? ≠ some .nil
  /-- The hash part holds no index of the array part, nor the next one. -/
  above : ∀ field ∈ t.hash, ∀ n, index? field.1 = some n → t.length + 1 < n
  /-- Nor does it hold a key that is equal to one of these. -/
  apart : ∀ n, 0 < n → n ≤ t.length + 1 → ∀ field ∈ t.hash, (field.1 == .ofNat n) = false
  present : t.length = 0 ∨ (t.get? (.ofNat t.length)).isSome
  absent : t.get? (.ofNat (t.length + 1)) = none

/-- A table whose parts divide its keys has its length as a border. -/
theorem Parted.bordered (parted : t.Parted 1) (small : t.length < 2 * Number.fractionValues)
    : t.Bordered where
  filled hole := absurd (parted.filled .nil hole) (by decide)
  above := parted.above
  apart n positive bound field member := by
    refine Bool.eq_false_iff.mpr fun equal => ?_
    have place := (index?_eq_some_iff positive (bound.trans small)).mpr equal
    exact absurd (parted.above field member n place) (Nat.not_lt.mpr bound)
  present := by
    rw [or_iff_not_imp_left]
    intro occupied
    have positive : 0 < t.array.size := Nat.pos_of_ne_zero occupied
    have place : index? (.ofNat t.length) = some t.length :=
      Number.toIndex?_toFloat positive small.le
    have last : t.array.back? = some t.array[t.array.size - 1] := by
      rw [Array.back?_eq_getElem?, Array.getElem?_eq_getElem (by omega)]
    have held : cell t.array (t.length - 1) = some t.array[t.array.size - 1] :=
      cell_eq_some.mpr ⟨Array.getElem?_eq_getElem (by rw [length]; omega), parted.filled _ last⟩
    rw [parted.get?_eq, indexed, place, Option.bind_some, held]
    rfl
  absent := by
    have next : index? (.ofNat (t.length + 1)) = some (t.length + 1) :=
      Number.toIndex?_toFloat (Nat.succ_pos _) small
    have slots : indexed t.array (.ofNat (t.length + 1)) = none :=
      indexed_eq_none fun n place => by
        obtain rfl := Option.some.inj (next.symm.trans place)
        exact Nat.lt_succ_self _
    rw [parted.get?_eq, slots, Option.none_or, parted.lookup_eq_none next (Nat.le_refl _)]

/-- The write goes to the end of the array part. -/
structure Appends (t : Table) (key value : Value) : Prop where
  next : index? key = some (t.length + 1)
  filled : value.isNil = false

/-- An append moves all that follows it. -/
theorem Parted.settles (parted : t.Parted 1) (found : key.isNaN = false)
    (appends : t.Appends key value) (small : (t.set key value).length < 2 * Number.fractionValues)
    : Settles { t with array := t.array.push value } (t.set key value) := by
  have bordered := (parted.set found value).1.bordered small
  have moved
      : t.set key value = Table.absorb t.hash.length { t with array := t.array.push value } := by
    unfold Table.set
    rw [appends.next]
    exact if_pos ⟨rfl, by simp [appends.filled]⟩
  refine ⟨wellFounded_migrates.apply _, ?_, ?_⟩
  · rw [moved] at small ⊢
    exact migrates_absorb small.le
  · rintro further ⟨value, left, -⟩
    obtain ⟨field, equal, member⟩ := exists_mem_of_lookup left
    exact Bool.eq_false_iff.mp
      (bordered.apart _ (Nat.succ_pos _) (Nat.le_refl _) _ member) equal

/-- Whatever is written to an empty table, under whatever keys but NaN: as long as counts of its
slots are exact, its length is a border, and the moving that its last write sets off, if it is an
append, comes to an end.
-/
theorem bordered_of_writes (numbers : ∀ write ∈ writes, write.1.isNaN = false)
    (small : (ofWrites writes).length < 2 * Number.fractionValues)
    : (ofWrites writes).Bordered
      ∧ ∀ before key value, writes = before ++ [(key, value)]
          → (ofWrites before).Appends key value
          → Settles { ofWrites before with array := (ofWrites before).array.push value }
              (ofWrites writes) := by
  refine ⟨(ofWrites_reads numbers).1.bordered small, ?_⟩
  rintro before key value rfl appends
  have named : ∀ write ∈ before, write.1.isNaN = false :=
    fun write member => numbers write (List.mem_append_left _ member)
  have split : ofWrites (before ++ [(key, value)]) = (ofWrites before).set key value := by
    simp [ofWrites]
  rw [split] at small ⊢
  exact (ofWrites_reads named).1.settles (numbers (key, value) (by simp)) appends small

/-- An end that is cut off with the holes before it, and fields that wait in the hash part for the
first index and are moved behind it.
-/
theorem bordered_of_writes_backwards
    : ∃ before : List (Value × Value),
        (∀ write ∈ before ++ [(.number 1, .string "a")], write.1.isNaN = false)
          ∧ (ofWrites before).length = 0
          ∧ (ofWrites (before ++ [(.number 1, .string "a")])).length = 3
          ∧ (ofWrites (before ++ [(.number 1, .string "a")])).Bordered
          ∧ Settles { ofWrites before with array := (ofWrites before).array.push (.string "a") }
              (ofWrites (before ++ [(.number 1, .string "a")])) := by
  let before : List (Value × Value) :=
    [(.number 1, .string "x"), (.number 2, .string "y"), (.number 1, .nil), (.number 2, .nil),
      (.number 3, .string "c"), (.number 2, .string "b"), (.number 5, .string "e")]
  have numbers : ∀ write ∈ before ++ [(.number 1, .string "a")], write.1.isNaN = false := by
    decide +kernel
  have small : (ofWrites (before ++ [(.number 1, .string "a")])).length
      < 2 * Number.fractionValues := by
    decide +kernel
  obtain ⟨bordered, settles⟩ := bordered_of_writes numbers small
  refine ⟨before, numbers, ?_, ?_, bordered, settles before _ _ rfl ⟨?_, rfl⟩⟩
  · decide +kernel
  · decide +kernel
  · decide +kernel

end HookMachine.Table
