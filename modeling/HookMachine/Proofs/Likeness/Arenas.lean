import HookMachine.Proofs.Arena.Upcoming
import HookMachine.Proofs.Likeness.Tables

/-!
Arenas whose values are alike. Arenas of the same handles stay so when the same is done to them;
where handles are only tied, looking up tied ones comes to like values after inserting like values
and after like changes.
-/

namespace HookMachine

variable {α β : Type} {related : α → β → Prop}

-----------------------------------------------------------------------------------------
-- Tied handles
-----------------------------------------------------------------------------------------

section

variable {a : Arena α} {b : Arena β} {g g' h h' : Handle}

theorem Matched.insert {x : α} {y : β} (alike : related x y)
    (apart : h = (a.insert x).1 ↔ h' = (b.insert y).1)
    (matched : Matched related (a.get h) (b.get h'))
    : Matched related ((a.insert x).2.get h) ((b.insert y).2.get h') := by
  rw [Arena.get_insert_eq, Arena.get_insert_eq]
  by_cases new : h = (a.insert x).1
  · rw [if_pos new, if_pos (apart.mp new)]
    exact .ok alike
  · rw [if_neg new, if_neg (mt apart.mpr new)]
    exact matched

theorem Matched.modify {change : α → α} {change' : β → β}
    (changed : ∀ {x y}, related x y → related (change x) (change' y)) (apart : h = g ↔ h' = g')
    (matched : Matched related (a.get h) (b.get h'))
    : Matched related ((a.modify g change).get h) ((b.modify g' change').get h') := by
  rw [Arena.get_modify_eq, Arena.get_modify_eq]
  by_cases same : h = g
  · rw [if_pos same, if_pos (apart.mp same)]
    generalize a.get h = p at *
    generalize b.get h' = q at *
    cases matched with
    | ok alike => exact .ok (changed alike)
    | error miss => exact .error miss
  · rw [if_neg same, if_neg (mt apart.mpr same)]
    exact matched

end

-----------------------------------------------------------------------------------------
-- The same handles
-----------------------------------------------------------------------------------------

/-- Slots that were filled as often and hold like values. -/
structure Slot.Alike (related : α → β → Prop) (s : Slot α) (t : Slot β) : Prop where
  generation : s.generation = t.generation
  content : Option.Rel related s.content t.content

/-- Arenas with the same handles and like values behind them. -/
structure Arena.Alike (related : α → β → Prop) (a : Arena α) (b : Arena β) : Prop where
  heap : a.heap = b.heap
  slots : a.slots.toList.Forall₂ (Slot.Alike related) b.slots.toList
  vacant : a.vacant = b.vacant

namespace Arena.Alike

variable {a : Arena α} {b : Arena β} (alike : a.Alike related b)

include alike

theorem slot (index : Nat) : Option.Rel (Slot.Alike related) a.slots[index]? b.slots[index]? := by
  rw [← Array.getElem?_toList, ← Array.getElem?_toList]
  exact alike.slots.getElem? index

theorem getD (index : Nat) : Slot.Alike related (a.slots.getD index {}) (b.slots.getD index {}) := by
  have slot := alike.slot index
  simp only [Array.getD_eq_getD_getElem?]
  generalize a.slots[index]? = o at *
  generalize b.slots[index]? = p at *
  cases slot with
  | some slot => exact slot
  | none => exact ⟨rfl, .none⟩

theorem get (handle : Handle) : Matched related (a.get handle) (b.get handle) := by
  have slot := alike.slot handle.index
  have held := alike.getD handle.index
  unfold Arena.get Arena.locate
  rw [alike.heap]
  split
  · exact .error _
  · generalize a.slots[handle.index]? = o at *
    generalize b.slots[handle.index]? = p at *
    cases slot with
    | none => exact .error _
    | some slot =>
        dsimp only
        rw [slot.generation]
        split
        · obtain ⟨-, content⟩ := held
          dsimp only [bind, Except.bind]
          generalize (a.slots.getD handle.index {}).content = o at *
          generalize (b.slots.getD handle.index {}).content = p at *
          cases content with
          | some holds => exact .ok holds
          | none => exact .error _
        · exact .error _

theorem insert {x : α} {y : β} (holds : related x y)
    : (a.insert x).1 = (b.insert y).1 ∧ (a.insert x).2.Alike related (b.insert y).2 := by
  have vacant := alike.vacant
  have size : a.slots.size = b.slots.size := alike.slots.length_eq
  unfold Arena.insert
  split <;> rename_i vacancy <;> split <;> rename_i also <;> rw [vacancy, also] at vacant
  · obtain ⟨rfl, rfl⟩ := List.cons.inj vacant
    have generation (index : Nat) := (alike.getD index).generation
    refine ⟨by simp only [alike.heap, generation], alike.heap, ?_, rfl⟩
    simp only [Array.toList_setIfInBounds, generation]
    exact alike.slots.set ⟨rfl, .some holds⟩ _
  · cases vacant
  · cases vacant
  · refine ⟨by simp only [alike.heap, size], alike.heap, ?_, alike.vacant⟩
    simp only [Array.toList_push]
    exact alike.slots.append (.cons ⟨rfl, .some holds⟩ .nil)

theorem remove (handle : Handle)
    : Option.Rel related (a.remove handle).1 (b.remove handle).1
      ∧ (a.remove handle).2.Alike related (b.remove handle).2 := by
  have matched := alike.get handle
  unfold Arena.remove
  split <;> rename_i found <;> split <;> rename_i also <;> rw [found, also] at matched
  · exact ⟨.none, alike⟩
  · cases matched
  · cases matched
  · cases matched with
    | ok holds =>
        refine ⟨.some holds, alike.heap, ?_, congrArg _ alike.vacant⟩
        simp only [Array.toList_modify]
        refine alike.slots.modify (fun s t slot => ?_) _
        exact { generation := slot.generation, content := .none }

theorem values : (a.toList.map Prod.snd).Forall₂ related (b.toList.map Prod.snd) := by
  have listed {γ : Type} (arena : Arena γ) : arena.toList.map Prod.snd
      = (List.range arena.slots.size).filterMap fun index =>
          (arena.slots.getD index {}).content := by
    simp [toList, List.map_filterMap, Function.comp_def]
  have size : a.slots.size = b.slots.size := alike.slots.length_eq
  rw [listed, listed, size]
  generalize List.range b.slots.size = indices
  induction indices with
  | nil => exact .nil
  | cons index rest ih =>
      have content := (alike.getD index).content
      rw [List.filterMap_cons, List.filterMap_cons]
      generalize (a.slots.getD index {}).content = o at *
      generalize (b.slots.getD index {}).content = p at *
      cases content with
      | some holds => exact .cons holds ih
      | none => exact ih

end Arena.Alike
end HookMachine
