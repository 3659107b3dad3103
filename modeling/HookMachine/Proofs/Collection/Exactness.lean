import HookMachine.Proofs.Collection.Reachability

/-!
A collection leaves exactly what is reachable. Marking keeps the tri-colour invariant: what a
marked object refers to is marked or on the worklist, and nothing is ever marked that is not
reachable. Marks are all that it changes, and they are gone when a collection ends.
-/

namespace HookMachine

namespace Heap

variable {heap : Heap} {around : Surroundings} {roots gray : List Value}
  {object other : ObjectRef} {value : Value}

/-- No object is marked: the state of a heap between collections. -/
def Unmarked (heap : Heap) : Prop :=
  ∀ object ∈ heap.allObjects, heap.isMarked object = false

instance : Decidable heap.Unmarked :=
  inferInstanceAs (Decidable (∀ object ∈ heap.allObjects, heap.isMarked object = false))

-----------------------------------------------------------------------------------------
-- Marks are all that marking changes
-----------------------------------------------------------------------------------------

theorem isLive_of_isMarked (marked : heap.isMarked object = true)
    : heap.isLive object = true := by
  cases object <;>
    simp only [isMarked, isLive, Arena.holds_iff, Arena.contains_iff] at * <;>
    exact marked.imp fun _ held => held.1

theorem Unmarked.not_isMarked (unmarked : heap.Unmarked) (object : ObjectRef)
    : ¬heap.isMarked object = true := by
  intro marked
  have clear := unmarked object (mem_allObjects.mpr (isLive_of_isMarked marked))
  simp [marked] at clear

/-- Taking the marks off makes no difference to a heap without any. -/
theorem Unmarked.clearMarks_eq (unmarked : heap.Unmarked) : heap.clearMarks = heap := by
  have clear := unmarked.not_isMarked
  have tables : heap.tables.map (Table.mark false) = heap.tables := by
    refine Arena.map_eq_self fun handle t found => ?_
    have plain := clear (.table ⟨handle⟩)
    cases t
    simp_all [isMarked, Arena.holds, Table.mark]
  have closures : heap.closures.map (Closure.mark false) = heap.closures := by
    refine Arena.map_eq_self fun handle c found => ?_
    have plain := clear (.closure ⟨handle⟩)
    cases c
    simp_all [isMarked, Arena.holds, Closure.mark]
  have natives : heap.natives.map (Native.mark false) = heap.natives := by
    refine Arena.map_eq_self fun handle n found => ?_
    have plain := clear (.native ⟨handle⟩)
    cases n
    simp_all [isMarked, Arena.holds, Native.mark]
  simp [clearMarks, tables, closures, natives]

theorem clearMarks_mark (heap : Heap) (object : ObjectRef)
    : (heap.mark object).clearMarks = heap.clearMarks := by
  have tables (handle : Handle)
      : (heap.tables.modify handle (Table.mark true)).map (Table.mark false)
        = heap.tables.map (Table.mark false) :=
    Arena.map_modify fun _ => rfl
  have closures (handle : Handle)
      : (heap.closures.modify handle (Closure.mark true)).map (Closure.mark false)
        = heap.closures.map (Closure.mark false) :=
    Arena.map_modify fun _ => rfl
  have natives (handle : Handle)
      : (heap.natives.modify handle (Native.mark true)).map (Native.mark false)
        = heap.natives.map (Native.mark false) :=
    Arena.map_modify fun _ => rfl
  cases object <;> simp [mark, clearMarks, tables, closures, natives]

/-- Marking changes nothing but marks, by induction over its rounds. -/
theorem clearMarks_markAll (around : Surroundings) (heap : Heap) (gray : List Value)
    : (heap.markAll around gray).clearMarks = heap.clearMarks := by
  fun_induction markAll around heap gray with
  | case1 => rfl
  | case2 heap value gray plain ih => exact ih
  | case3 heap value gray object names white ih => rw [ih, clearMarks_mark]
  | case4 heap value gray object names black ih => exact ih

theorem isLive_clearMarks (heap : Heap) (object : ObjectRef)
    : heap.clearMarks.isLive object = heap.isLive object := by
  cases object <;> simp only [isLive, clearMarks, Arena.contains, Arena.get_map, Except.map]
  · cases heap.tables.get _ <;> rfl
  · cases heap.closures.get _ <;> rfl
  · cases heap.natives.get _ <;> rfl

theorem references_clearMarks (heap : Heap) (around : Surroundings) (object : ObjectRef)
    : heap.clearMarks.references around object = heap.references around object := by
  cases object <;> simp only [references, clearMarks, Arena.get_map, Except.map]
  · cases heap.tables.get _ <;> rfl
  · cases heap.closures.get _ <;> rfl
  · cases heap.natives.get _ <;> rfl

@[simp]
theorem isLive_mark (heap : Heap) (object other : ObjectRef)
    : (heap.mark object).isLive other = heap.isLive other := by
  rw [← isLive_clearMarks, clearMarks_mark, isLive_clearMarks]

@[simp]
theorem references_mark (heap : Heap) (around : Surroundings) (object other : ObjectRef)
    : (heap.mark object).references around other = heap.references around other := by
  rw [← references_clearMarks, clearMarks_mark, references_clearMarks]

-----------------------------------------------------------------------------------------
-- The tri-colour invariant
-----------------------------------------------------------------------------------------

/-- The object behind a value is black or gray: if it exists, it is marked or waits on the
worklist.
-/
def Covered (heap : Heap) (gray : List Value) (value : Value) : Prop :=
  ∀ object, value.object? = some object → heap.isLive object = true
    → heap.isMarked object = true ∨ ∃ waiting ∈ gray, waiting.object? = some object

/-- What a marked object refers to is covered. -/
def TriColour (heap : Heap) (around : Surroundings) (gray : List Value) : Prop :=
  ∀ object, heap.isMarked object = true
    → ∀ value ∈ heap.references around object, heap.Covered gray value

/-- A value with nothing to mark can leave the worklist. -/
theorem Covered.skip {idle : Value} (covered : heap.Covered (idle :: gray) value)
    (marked : ∀ object, idle.object? = some object → heap.isLive object = true
      → heap.isMarked object = true)
    : heap.Covered gray value := by
  intro object names live
  rcases covered object names live with black | ⟨waiting, member, names'⟩
  · exact .inl black
  · rcases List.mem_cons.mp member with rfl | member
    · exact .inl (marked object names' live)
    · exact .inr ⟨waiting, member, names'⟩

/-- A value can leave the worklist when its object is marked, whatever else comes on it. -/
theorem Covered.mark {white : Value} {more : List Value}
    (covered : heap.Covered (white :: gray) value) (names : white.object? = some object)
    : (heap.mark object).Covered (more ++ gray) value := by
  intro other other_names live
  rw [isLive_mark] at live
  rw [isMarked_mark]
  rcases covered other other_names live with black | ⟨waiting, member, waiting_names⟩
  · exact .inl (.inl black)
  · rcases List.mem_cons.mp member with rfl | member
    · have same : other = object := Option.some.inj (waiting_names.symm.trans names)
      exact .inl (.inr ⟨same, same ▸ live⟩)
    · exact .inr ⟨waiting, List.mem_append_right _ member, waiting_names⟩

/-- Marking an object and putting what it refers to on the worklist keeps the invariant. -/
theorem TriColour.mark (invariant : heap.TriColour around (value :: gray))
    (names : value.object? = some object)
    : (heap.mark object).TriColour around (heap.references around object ++ gray) := by
  intro other marked reference member
  rw [references_mark] at member
  rcases isMarked_mark.mp marked with black | ⟨rfl, _⟩
  · exact (invariant other black reference member).mark names
  · intro target target_names _
    exact .inr ⟨reference, List.mem_append_left _ member, target_names⟩

/-- Marking ends with an empty worklist, the invariant kept and all that was covered marked;
witness: each round keeps the invariant, by induction over the rounds.
-/
theorem TriColour.markAll (invariant : heap.TriColour around gray)
    : (heap.markAll around gray).TriColour around []
      ∧ ∀ value, heap.Covered gray value → (heap.markAll around gray).Covered [] value := by
  fun_induction Heap.markAll around heap gray with
  | case1 heap => exact ⟨invariant, fun _ covered => covered⟩
  | case2 heap idle gray plain ih =>
      have nothing (object : ObjectRef) (names : idle.object? = some object)
          (_ : heap.isLive object = true)
          : heap.isMarked object = true := by
        simp [plain] at names
      obtain ⟨final, kept⟩ :=
        ih fun object black value member => (invariant object black value member).skip nothing
      exact ⟨final, fun value covered => kept value (covered.skip nothing)⟩
  | case3 heap white gray object names _ ih =>
      obtain ⟨final, kept⟩ := ih (invariant.mark names)
      exact ⟨final, fun value covered => kept value (covered.mark names)⟩
  | case4 heap idle gray object names done ih =>
      have marked (other : ObjectRef) (other_names : idle.object? = some other)
          (live : heap.isLive other = true)
          : heap.isMarked other = true := by
        have same : other = object := Option.some.inj (other_names.symm.trans names)
        by_cases black : heap.isMarked other = true
        · exact black
        · exact absurd ⟨same ▸ live, same ▸ black⟩ done
      obtain ⟨final, kept⟩ :=
        ih fun object black value member => (invariant object black value member).skip marked
      exact ⟨final, fun value covered => kept value (covered.skip marked)⟩

/-- Nothing is marked but what a property closed under edges holds of, if it holds of what is
marked and of what the worklist names.
-/
theorem markAll_sound {property : ObjectRef → Prop}
    (closed : ∀ object, property object → ∀ value ∈ heap.references around object,
      ∀ target, value.object? = some target → heap.isLive target = true → property target)
    (black : ∀ object, heap.isMarked object = true → property object)
    (waiting : ∀ value ∈ gray, ∀ object, value.object? = some object
      → heap.isLive object = true → property object)
    (marked : (heap.markAll around gray).isMarked object = true)
    : property object := by
  fun_induction Heap.markAll around heap gray with
  | case1 heap => exact black object marked
  | case2 heap idle gray plain ih =>
      exact ih closed black (fun value member => waiting value (.tail _ member)) marked
  | case3 heap white gray reached names fresh ih =>
      have holds : property reached := waiting white (.head _) reached names fresh.1
      refine ih ?_ ?_ ?_ marked
      · simpa using closed
      · intro other other_marked
        rcases isMarked_mark.mp other_marked with old | ⟨rfl, _⟩
        · exact black other old
        · exact holds
      · intro value member target target_names live
        rw [isLive_mark] at live
        rcases List.mem_append.mp member with edge | member
        · exact closed reached holds value edge target target_names live
        · exact waiting value (.tail _ member) target target_names live
  | case4 heap idle gray reached names done ih =>
      exact ih closed black (fun value member => waiting value (.tail _ member)) marked

-----------------------------------------------------------------------------------------
-- Exactness
-----------------------------------------------------------------------------------------

/-- In a heap without marks, marking from the roots and the retained values marks exactly what
is reachable.
-/
theorem isMarked_markAll_iff (unmarked : heap.Unmarked)
    : (heap.markAll around (heap.anchors roots)).isMarked object = true
      ↔ heap.Reachable around roots object := by
  constructor
  · intro marked
    refine markAll_sound ?_ ?_ ?_ marked
    · intro source reached value member target names live
      exact .step reached (mem_references.mp member) names live
    · exact fun other black => absurd black (unmarked.not_isMarked other)
    · intro value member target names live
      rcases List.mem_append.mp member with root | held
      · exact .root root names live
      · obtain ⟨⟨slot, _⟩, listed, rfl⟩ := List.mem_map.mp held
        exact .retained (Arena.mem_toList.mp listed) names live
  · intro reached
    have start : heap.TriColour around (heap.anchors roots) :=
      fun other black => absurd black (unmarked.not_isMarked other)
    obtain ⟨final, kept⟩ := start.markAll
    have shown {value : Value} (covered : heap.Covered (heap.anchors roots) value) {target : ObjectRef}
        (names : value.object? = some target) (live : heap.isLive target = true)
        : (heap.markAll around (heap.anchors roots)).isMarked target = true := by
      rw [← isLive_clearMarks, ← clearMarks_markAll around heap _, isLive_clearMarks] at live
      simpa using kept value covered target names live
    induction reached with
    | root member names live =>
        refine shown (fun target names' _ => .inr ⟨_, ?_, names'⟩) names live
        exact List.mem_append_left _ member
    | @retained slot value _ held names live =>
        refine shown (fun target names' _ => .inr ⟨_, ?_, names'⟩) names live
        exact List.mem_append_right _
          (List.mem_map.mpr ⟨(slot, value), Arena.mem_toList.mpr held, rfl⟩)
    | step reached edge names live ih =>
        have member := mem_references.mpr edge
        rw [← references_clearMarks, ← clearMarks_markAll around heap _,
          references_clearMarks] at member
        rw [← isLive_clearMarks, ← clearMarks_markAll around heap _, isLive_clearMarks] at live
        simpa using final _ ih _ member _ names live

theorem clearMarks_markAll_of_unmarked (unmarked : heap.Unmarked)
    : (heap.markAll around gray).clearMarks = heap :=
  (clearMarks_markAll ..).trans unmarked.clearMarks_eq

/-- The tables that survive a collection are the reachable ones, as they were. -/
theorem get_tables_collect (unmarked : heap.Unmarked) {handle : Handle} {t : Table}
    : (heap.collect around roots).2.tables.get handle = .ok t
      ↔ heap.tables.get handle = .ok t ∧ heap.Reachable around roots (.table ⟨handle⟩) := by
  rw [← isMarked_markAll_iff unmarked]
  exact Arena.get_map_retain (congrArg Heap.tables (clearMarks_markAll_of_unmarked unmarked))

/-- The closures that survive a collection are the reachable ones, as they were. -/
theorem get_closures_collect (unmarked : heap.Unmarked) {handle : Handle} {c : Closure}
    : (heap.collect around roots).2.closures.get handle = .ok c
      ↔ heap.closures.get handle = .ok c ∧ heap.Reachable around roots (.closure ⟨handle⟩) := by
  rw [← isMarked_markAll_iff unmarked]
  exact Arena.get_map_retain (congrArg Heap.closures (clearMarks_markAll_of_unmarked unmarked))

/-- The natives that survive a collection are the reachable ones, as they were. -/
theorem get_natives_collect (unmarked : heap.Unmarked) {handle : Handle} {n : Native}
    : (heap.collect around roots).2.natives.get handle = .ok n
      ↔ heap.natives.get handle = .ok n ∧ heap.Reachable around roots (.native ⟨handle⟩) := by
  rw [← isMarked_markAll_iff unmarked]
  exact Arena.get_map_retain (congrArg Heap.natives (clearMarks_markAll_of_unmarked unmarked))

/-- What is reachable exists to begin with. -/
theorem Reachable.isLive (reached : heap.Reachable around roots object)
    : heap.isLive object = true := by
  cases reached <;> assumption

/-- Exactly the reachable objects exist after a collection. -/
theorem isLive_collect_iff (unmarked : heap.Unmarked)
    : (heap.collect around roots).2.isLive object = true
      ↔ heap.Reachable around roots object := by
  refine Iff.trans ?_ (and_iff_right_of_imp Reachable.isLive)
  rcases object with ⟨⟨handle⟩⟩ | ⟨⟨handle⟩⟩ | ⟨⟨handle⟩⟩ <;>
    simp only [isLive, Arena.contains_iff, get_tables_collect unmarked,
      get_closures_collect unmarked, get_natives_collect unmarked, exists_and_right]

/-- The retained values are no part of what marking and sweeping look at. -/
theorem retained_collect (heap : Heap) (around : Surroundings) (roots : List Value)
    : (heap.collect around roots).2.retained = heap.retained := by
  have marking (gray : List Value) : (heap.markAll around gray).retained = heap.retained := by
    have wiped := congrArg Heap.retained (clearMarks_markAll around heap gray)
    simpa [clearMarks] using wiped
  exact marking _

theorem allObjects_markAll (around : Surroundings) (heap : Heap) (gray : List Value)
    : (heap.markAll around gray).allObjects = heap.allObjects := by
  have wiped := congrArg allObjects (clearMarks_markAll around heap gray)
  simpa [allObjects, clearMarks] using wiped

/-- A collection returns how many objects it removes: those left without a mark. -/
theorem collect_fst (unmarked : heap.Unmarked)
    : (heap.collect around roots).1
      = heap.allObjects.countP fun object => !(heap.collect around roots).2.isLive object := by
  have swept (marked : Heap)
      : marked.sweep.1 = marked.allObjects.countP fun object => !marked.isMarked object := by
    simp only [sweep, Arena.retain_fst, allObjects, List.countP_append, List.countP_map]
    rfl
  refine (swept _).trans ?_
  rw [allObjects_markAll]
  refine List.countP_congr fun object _ => ?_
  have exact : _ ↔ heap.Reachable around roots object := isMarked_markAll_iff unmarked
  simp only [Bool.not_eq_true', ← Bool.not_eq_true, exact, isLive_collect_iff unmarked]

/-- No marks are left after a collection. -/
theorem unmarked_collect (heap : Heap) (around : Surroundings) (roots : List Value)
    : (heap.collect around roots).2.Unmarked := by
  have plain (marked : Heap) : marked.clearMarks.Unmarked := by
    intro object _
    rcases object with ⟨⟨handle⟩⟩ | ⟨⟨handle⟩⟩ | ⟨⟨handle⟩⟩ <;>
      simp only [isMarked, clearMarks, Arena.holds, Arena.get_map, Except.map] <;>
      split <;> rename_i found <;> split at found <;> cases found <;> rfl
  exact plain _

/-- What a collection from `roots` owes to a heap. -/
structure Collected (heap : Heap) (around : Surroundings) (roots : List Value) (removed : Nat)
    (after : Heap) : Prop where
  /-- Exactly the reachable objects are left. -/
  live_iff : ∀ object, after.isLive object = true ↔ heap.Reachable around roots object
  /-- What is left has the handle and the contents that it had. -/
  tables : ∀ handle t, after.tables.get handle = .ok t → heap.tables.get handle = .ok t
  closures : ∀ handle c, after.closures.get handle = .ok c → heap.closures.get handle = .ok c
  natives : ∀ handle n, after.natives.get handle = .ok n → heap.natives.get handle = .ok n
  retained : after.retained = heap.retained
  /-- The objects that are not left are counted. -/
  removed_eq : removed = heap.allObjects.countP fun object => !after.isLive object
  unmarked : after.Unmarked

/-- What a collection owes to a heap without marks. -/
theorem Unmarked.collected (unmarked : heap.Unmarked) (around : Surroundings)
    (roots : List Value)
    : heap.Collected around roots (heap.collect around roots).1
        (heap.collect around roots).2 where
  live_iff _ := isLive_collect_iff unmarked
  tables _ _ survives := ((get_tables_collect unmarked).mp survives).1
  closures _ _ survives := ((get_closures_collect unmarked).mp survives).1
  natives _ _ survives := ((get_natives_collect unmarked).mp survives).1
  retained := retained_collect heap around roots
  removed_eq := collect_fst unmarked
  unmarked := unmarked_collect heap around roots

-----------------------------------------------------------------------------------------
-- Heaps over time
-----------------------------------------------------------------------------------------

/-- The heap was made from an empty one by adding objects, by changes that leave the marks to
the collector, and by collections, in any order.
-/
inductive Made : Heap → Prop
  | empty (id : Nat) : Made (.empty id)
  | table {heap : Heap} (made : Made heap) {t : Table} (plain : t.marked = false)
    : Made { heap with tables := (heap.tables.insert t).2 }
  | closure {heap : Heap} (made : Made heap) {c : Closure} (plain : c.marked = false)
    : Made { heap with closures := (heap.closures.insert c).2 }
  | native {heap : Heap} (made : Made heap) {n : Native} (plain : n.marked = false)
    : Made { heap with natives := (heap.natives.insert n).2 }
  | changeTable {heap : Heap} (made : Made heap) (handle : Handle) {change : Table → Table}
    (aside : ∀ t, (change t).marked = t.marked)
    : Made { heap with tables := heap.tables.modify handle change }
  | changeClosure {heap : Heap} (made : Made heap) (handle : Handle) {change : Closure → Closure}
    (aside : ∀ c, (change c).marked = c.marked)
    : Made { heap with closures := heap.closures.modify handle change }
  | retained {heap : Heap} (made : Made heap) (values : Arena Value)
    : Made { heap with retained := values }
  | collect {heap : Heap} (made : Made heap) (around : Surroundings) (roots : List Value)
    : Made (heap.collect around roots).2

/-- A heap has no marks if nothing that one of its handles names has one. -/
theorem unmarked_iff
    : heap.Unmarked
      ↔ (∀ handle t, heap.tables.get handle = .ok t → t.marked = false)
        ∧ (∀ handle c, heap.closures.get handle = .ok c → c.marked = false)
        ∧ ∀ handle n, heap.natives.get handle = .ok n → n.marked = false := by
  constructor
  · intro unmarked
    have clear := unmarked.not_isMarked
    refine ⟨fun handle t found => ?_, fun handle c found => ?_, fun handle n found => ?_⟩
    · simpa [isMarked, Arena.holds, found] using clear (.table ⟨handle⟩)
    · simpa [isMarked, Arena.holds, found] using clear (.closure ⟨handle⟩)
    · simpa [isMarked, Arena.holds, found] using clear (.native ⟨handle⟩)
  · rintro ⟨tables, closures, natives⟩ object _
    rw [← Bool.not_eq_true]
    intro marked
    rcases object with ⟨handle⟩ | ⟨handle⟩ | ⟨handle⟩ <;>
      obtain ⟨held, found, marked⟩ := Arena.holds_iff.mp marked
    · simp [tables _ _ found] at marked
    · simp [closures _ _ found] at marked
    · simp [natives _ _ found] at marked

/-- No operation leaves a mark behind, by induction over the operations. -/
theorem Made.unmarked (made : heap.Made) : heap.Unmarked := by
  induction made with
  | empty id => simp [unmarked_iff, Heap.empty]
  | table _ plain ih =>
      obtain ⟨tables, closures, natives⟩ := unmarked_iff.mp ih
      refine unmarked_iff.mpr ⟨fun handle t found => ?_, closures, natives⟩
      rcases Arena.get_insert.mp found with ⟨_, rfl⟩ | found
      · exact plain
      · exact tables handle t found
  | closure _ plain ih =>
      obtain ⟨tables, closures, natives⟩ := unmarked_iff.mp ih
      refine unmarked_iff.mpr ⟨tables, fun handle c found => ?_, natives⟩
      rcases Arena.get_insert.mp found with ⟨_, rfl⟩ | found
      · exact plain
      · exact closures handle c found
  | native _ plain ih =>
      obtain ⟨tables, closures, natives⟩ := unmarked_iff.mp ih
      refine unmarked_iff.mpr ⟨tables, closures, fun handle n found => ?_⟩
      rcases Arena.get_insert.mp found with ⟨_, rfl⟩ | found
      · exact plain
      · exact natives handle n found
  | changeTable _ handle aside ih =>
      obtain ⟨tables, closures, natives⟩ := unmarked_iff.mp ih
      refine unmarked_iff.mpr ⟨fun other t found => ?_, closures, natives⟩
      obtain ⟨before, held, rfl⟩ := Arena.get_modify.mp found
      split <;> simp [aside, tables _ _ held]
  | changeClosure _ handle aside ih =>
      obtain ⟨tables, closures, natives⟩ := unmarked_iff.mp ih
      refine unmarked_iff.mpr ⟨tables, fun other c found => ?_, natives⟩
      obtain ⟨before, held, rfl⟩ := Arena.get_modify.mp found
      split <;> simp [aside, closures _ _ held]
  | retained _ values ih => exact unmarked_iff.mpr (unmarked_iff.mp ih)
  | collect _ around roots _ => exact unmarked_collect _ around roots

/-- Every collection in the life of a heap does what it owes, whatever was collected before.
That it ends is in its definition: each round marks an object or shortens the worklist.
-/
theorem collect_exact (heap : Heap) (around : Surroundings) (roots : List Value)
    (made : heap.Made)
    : heap.Collected around roots (heap.collect around roots).1
        (heap.collect around roots).2 :=
  made.unmarked.collected around roots

/-- A table that is its own metatable, and a closure that nothing reaches and that refers to
the table and to a cell that does not exist.
-/
def looped : Heap :=
  let self : TableRef := ⟨⟨1, 0, 0⟩⟩
  let tables := ((Heap.empty 1).tables.insert { metatable := some self }).2
  let unused : Closure := { prototype := ⟨0⟩, upvalues := #[⟨7⟩], environment := self }
  { Heap.empty 1 with tables, closures := ((Heap.empty 1).closures.insert unused).2 }

/-- The closure is collected, the table stays, and the next collection is as exact. -/
theorem collect_exact_twice
    : let around : Surroundings := { prototypes := {}, cells := #[] }
      let roots : List Value := [.table ⟨⟨1, 0, 0⟩⟩]
      looped.Made
        ∧ looped.Collected around roots (looped.collect around roots).1
            (looped.collect around roots).2
        ∧ (looped.collect around roots).2.Collected around []
            ((looped.collect around roots).2.collect around []).1
            ((looped.collect around roots).2.collect around []).2 := by
  have made : looped.Made := ((Made.empty 1).table rfl).closure rfl
  exact ⟨made, collect_exact _ _ _ made, collect_exact _ _ _ (made.collect _ _)⟩

end Heap
end HookMachine
