import HookMachine.Collector

/-!
What the operations of a table do to the values that it refers to: nothing comes in but the key
and the value that are stored.
-/

namespace HookMachine.Table

variable {t : Table} {holds : Value → Prop} {key value : Value}

/-- What a table refers to, part by part. -/
theorem forall_references (t : Table) (holds : Value → Prop)
    : (∀ value ∈ t.references, holds value)
      ↔ (∀ value ∈ t.array, holds value)
        ∧ (∀ field ∈ t.hash, holds field.1 ∧ holds field.2)
        ∧ ∀ mt, t.metatable = some mt → holds (.table mt) := by
  constructor
  · intro all
    refine ⟨fun value member => ?_, fun field member => ⟨?_, ?_⟩, fun mt attached => ?_⟩ <;>
      refine all _ ?_ <;>
      simp only [references, List.mem_append, List.mem_flatMap, Option.mem_toList,
        Option.map_eq_some_iff, Array.mem_toList_iff]
    · exact .inl (.inl member)
    · exact .inl (.inr ⟨field, member, by simp⟩)
    · exact .inl (.inr ⟨field, member, by simp⟩)
    · exact .inr ⟨mt, attached, rfl⟩
  · rintro ⟨array, hash, metatable⟩ value member
    simp only [references, List.mem_append, List.mem_flatMap, Option.mem_toList,
      Option.map_eq_some_iff, Array.mem_toList_iff] at member
    rcases member with (element | ⟨field, listed, part⟩) | ⟨mt, attached, rfl⟩
    · exact array value element
    · rcases List.mem_cons.mp part with rfl | part
      · exact (hash field listed).1
      · exact List.mem_singleton.mp part ▸ (hash field listed).2
    · exact metatable mt attached

theorem mem_store {hash : List (Value × Value)} {field : Value × Value}
    (member : field ∈ store key value hash)
    : (field.1 = key ∨ (field.1 == key) = true ∧ ∃ other ∈ hash, field.1 = other.1)
          ∧ field.2 = value
      ∨ field ∈ hash := by
  induction hash with
  | nil =>
      obtain rfl := List.mem_singleton.mp member
      exact .inl ⟨.inl rfl, rfl⟩
  | cons first rest ih =>
      unfold store at member
      split at member
      · rename_i equal
        rcases List.mem_cons.mp member with rfl | member
        · exact .inl ⟨.inr ⟨equal, first, .head _, rfl⟩, rfl⟩
        · exact .inr (.tail _ member)
      · rcases List.mem_cons.mp member with rfl | member
        · exact .inr (.head _)
        · rcases ih member with ⟨named, stored⟩ | old
          · refine .inl ⟨named.imp_right fun ⟨equal, other, listed, same⟩ => ?_, stored⟩
            exact ⟨equal, other, .tail _ listed, same⟩
          · exact .inr (.tail _ old)

theorem references_setHash (all : ∀ value ∈ t.references, holds value) (key_holds : holds key)
    (value_holds : holds value)
    : ∀ other ∈ (t.setHash key value).references, holds other := by
  obtain ⟨array, hash, metatable⟩ := (forall_references ..).mp all
  unfold setHash
  split
  · refine (forall_references ..).mpr ⟨array, fun field member => ?_, metatable⟩
    exact hash field (List.mem_filter.mp member).1
  · refine (forall_references ..).mpr ⟨array, fun field member => ?_, metatable⟩
    rcases mem_store member with ⟨named, stored⟩ | old
    · refine ⟨?_, stored ▸ value_holds⟩
      rcases named with same | ⟨_, other, listed, same⟩
      · exact same ▸ key_holds
      · exact same ▸ (hash other listed).1
    · exact hash field old

theorem references_absorb (fuel : Nat) (all : ∀ value ∈ t.references, holds value)
    : ∀ value ∈ (absorb fuel t).references, holds value := by
  induction fuel generalizing t with
  | zero => exact all
  | succ fuel ih =>
      unfold absorb
      dsimp only
      split
      · exact all
      · rename_i value moved
        obtain ⟨array, hash, metatable⟩ := (forall_references ..).mp all
        obtain ⟨field, found, rfl⟩ := Option.map_eq_some_iff.mp moved
        refine ih ((forall_references ..).mpr ⟨fun other member => ?_, fun other member => ?_, metatable⟩)
        · rcases Array.mem_push.mp member with old | rfl
          · exact array other old
          · exact (hash field (List.mem_of_find?_eq_some found)).2
        · exact hash other (List.mem_filter.mp member).1

theorem mem_of_mem_popWhile {array : Array Value} {test : Value → Bool}
    (member : value ∈ array.popWhile test)
    : value ∈ array := by
  obtain ⟨values⟩ := array
  rw [List.popWhile_toArray, List.mem_toArray, List.mem_reverse] at member
  simpa using (List.dropWhile_sublist _).subset member

/-- Setting a field brings in its key and its value only. -/
theorem references_set (all : ∀ value ∈ t.references, holds value) (key_holds : holds key)
    (value_holds : holds value)
    : ∀ other ∈ (t.set key value).references, holds other := by
  obtain ⟨array, hash, metatable⟩ := (forall_references ..).mp all
  unfold set
  split
  · exact references_setHash all key_holds value_holds
  · split
    · refine references_absorb _ ((forall_references ..).mpr ⟨fun other member => ?_, hash, metatable⟩)
      rcases Array.mem_push.mp member with old | rfl
      · exact array other old
      · exact value_holds
    · split
      · refine (forall_references ..).mpr ⟨fun other member => ?_, hash, metatable⟩
        rcases Array.mem_or_eq_of_mem_setIfInBounds (mem_of_mem_popWhile member) with old | rfl
        · exact array other old
        · exact value_holds
      · exact references_setHash all key_holds value_holds

@[simp]
theorem marked_absorb (fuel : Nat) (t : Table) : (absorb fuel t).marked = t.marked := by
  induction fuel generalizing t with
  | zero => rfl
  | succ fuel ih =>
      unfold absorb
      dsimp only
      split
      · rfl
      · rw [ih]

/-- Setting a field leaves the mark to the collector. -/
@[simp]
theorem marked_set (t : Table) (key value : Value) : (t.set key value).marked = t.marked := by
  have hashed : (t.setHash key value).marked = t.marked := by
    unfold setHash
    split <;> rfl
  unfold set
  split
  · exact hashed
  · split
    · rw [marked_absorb]
    · split
      · rfl
      · exact hashed

theorem mem_references_of_get? (found : t.get? key = some value) : value ∈ t.references := by
  have hashed (found : lookup key t.hash = some value) : value ∈ t.references := by
    obtain ⟨field, hit, rfl⟩ := Option.map_eq_some_iff.mp found
    have listed := List.mem_of_find?_eq_some hit
    exact ((forall_references t (· ∈ t.references)).mp fun _ => id).2.1 field listed |>.2
  unfold get? at found
  split at found
  · split at found
    · obtain ⟨held, _⟩ := Option.filter_eq_some_iff.mp found
      have element := Array.mem_of_getElem? held
      exact ((forall_references t (· ∈ t.references)).mp fun _ => id).1 value element
    · exact hashed found
  · exact hashed found

end HookMachine.Table
