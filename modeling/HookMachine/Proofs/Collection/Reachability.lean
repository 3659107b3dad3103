import HookMachine.Collector

/-!
What a heap keeps alive, as a relation: the ten kinds of edges between objects, and the
objects that paths of them reach. The lists that a collection walks are shown to be these
edges, and neither they nor the objects that exist depend on marks.
-/

namespace HookMachine

-----------------------------------------------------------------------------------------
-- Edges
-----------------------------------------------------------------------------------------

/-- `target` is `ref` itself or nested in it, directly or through others. -/
inductive PrototypeStore.Nests (store : PrototypeStore) : PrototypeRef → PrototypeRef → Prop
  | self (ref) : store.Nests ref ref
  | deeper {ref child target} (member : child ∈ (store.get ref).nested)
    (below : store.Nests child target)
    : store.Nests ref target

namespace Heap

/-- An object that exists refers to a value, in one of ten ways. -/
inductive Refers (heap : Heap) (around : Surroundings) : ObjectRef → Value → Prop
  | element {ref t value} (found : heap.tables.get ref.handle = .ok t) (member : value ∈ t.array)
    : heap.Refers around (.table ref) value
  | key {ref t field} (found : heap.tables.get ref.handle = .ok t) (member : field ∈ t.hash)
    : heap.Refers around (.table ref) field.1
  | content {ref t field} (found : heap.tables.get ref.handle = .ok t) (member : field ∈ t.hash)
    : heap.Refers around (.table ref) field.2
  | metatable {ref t mt} (found : heap.tables.get ref.handle = .ok t)
    (attached : t.metatable = some mt)
    : heap.Refers around (.table ref) (.table mt)
  | environment {ref c} (found : heap.closures.get ref.handle = .ok c)
    : heap.Refers around (.closure ref) (.table c.environment)
  | upvalue {ref c cell} (found : heap.closures.get ref.handle = .ok c)
    (member : cell ∈ c.upvalues)
    : heap.Refers around (.closure ref) (around.cells.getD cell.index .nil)
  | redirect {ref c value} (found : heap.closures.get ref.handle = .ok c)
    (redirected : c.redirect = some value)
    : heap.Refers around (.closure ref) value
  | constant {ref c value} (found : heap.closures.get ref.handle = .ok c)
    (member : value ∈ (around.prototypes.get c.prototype).constants)
    (reference : value.isReference = true)
    : heap.Refers around (.closure ref) value
  | nestedConstant {ref c child target value} (found : heap.closures.get ref.handle = .ok c)
    (nested : child ∈ (around.prototypes.get c.prototype).nested)
    (nests : around.prototypes.Nests child target)
    (member : value ∈ (around.prototypes.get target).constants)
    (reference : value.isReference = true)
    : heap.Refers around (.closure ref) value
  | bound {ref n value} (found : heap.natives.get ref.handle = .ok n) (member : value ∈ n.bound)
    : heap.Refers around (.native ref) value

/-- An object exists, and a path of edges leads to it from a root or a retained value. -/
inductive Reachable (heap : Heap) (around : Surroundings) (roots : List Value) : ObjectRef → Prop
  | root {value object} (member : value ∈ roots) (names : value.object? = some object)
    (live : heap.isLive object = true)
    : heap.Reachable around roots object
  | retained {slot value object} (held : heap.retained.get slot = .ok value)
    (names : value.object? = some object) (live : heap.isLive object = true)
    : heap.Reachable around roots object
  | step {source value object} (reached : heap.Reachable around roots source)
    (edge : heap.Refers around source value) (names : value.object? = some object)
    (live : heap.isLive object = true)
    : heap.Reachable around roots object

end Heap

-----------------------------------------------------------------------------------------
-- The lists that a collection walks
-----------------------------------------------------------------------------------------

/-- The references of a prototype are those among the constants of what it nests. -/
theorem PrototypeStore.mem_references {store : PrototypeStore} {ref : PrototypeRef}
    {value : Value}
    : value ∈ store.references ref
      ↔ ∃ target, store.Nests ref target
          ∧ value ∈ (store.get target).constants ∧ value.isReference = true := by
  constructor
  · fun_induction PrototypeStore.references store ref with
    | case1 ref p ih =>
        intro member
        rcases List.mem_append.mp member with own | below
        · obtain ⟨constant, reference⟩ := List.mem_filter.mp own
          exact ⟨ref, .self ref, by simpa using constant, reference⟩
        · obtain ⟨⟨child, nested⟩, _, inner⟩ := List.mem_flatMap.mp below
          obtain ⟨target, nests, found⟩ := ih child nested inner
          exact ⟨target, .deeper nested nests, found⟩
  · rintro ⟨target, nests, constant, reference⟩
    induction nests with
    | self ref =>
        rw [PrototypeStore.references]
        exact List.mem_append_left _
          (List.mem_filter.mpr ⟨by simpa using constant, reference⟩)
    | @deeper ref child target nested _ ih =>
        rw [PrototypeStore.references]
        refine List.mem_append_right _ (List.mem_flatMap.mpr ?_)
        exact ⟨⟨child, nested⟩, by simpa using nested, ih constant⟩

namespace Heap

variable {heap : Heap} {around : Surroundings} {object other : ObjectRef} {value : Value}

/-- The values that a collection walks from an object are its edges. -/
theorem mem_references
    : value ∈ heap.references around object ↔ heap.Refers around object value := by
  constructor
  · intro member
    rcases object with ref | ref | ref
    · rcases found : heap.tables.get ref.handle with _ | t <;>
        simp only [references, found, Except.toOption, Option.elim] at member
      · simp at member
      · simp only [Table.references, List.mem_append, List.mem_flatMap, Option.mem_toList,
          Option.map_eq_some_iff, Array.mem_toList_iff] at member
        rcases member with (element | ⟨field, listed, part⟩) | ⟨mt, attached, rfl⟩
        · exact .element found element
        · rcases List.mem_cons.mp part with rfl | part
          · exact .key found listed
          · exact List.mem_singleton.mp part ▸ .content found listed
        · exact .metatable found attached
    · rcases found : heap.closures.get ref.handle with _ | c <;>
        simp only [references, found, Except.toOption, Option.elim] at member
      · simp at member
      · simp only [Closure.references, List.mem_append, List.mem_cons, List.mem_map,
          Option.mem_toList, Array.mem_toList_iff] at member
        rcases member with ((rfl | ⟨cell, listed, rfl⟩) | redirected) | constant
        · exact .environment found
        · exact .upvalue found listed
        · exact .redirect found redirected
        · obtain ⟨target, nests, listed, reference⟩ :=
            PrototypeStore.mem_references.mp constant
          cases nests with
          | self => exact .constant found listed reference
          | deeper nested below => exact .nestedConstant found nested below listed reference
    · rcases found : heap.natives.get ref.handle with _ | n <;>
        simp only [references, found, Except.toOption, Option.elim] at member
      · simp at member
      · exact .bound found member
  · intro edge
    cases edge with
    | element found member =>
        simp [references, found, Except.toOption, Table.references, member]
    | @key _ _ field found member =>
        simp only [references, found, Except.toOption, Option.elim, Table.references]
        refine List.mem_append_left _ (List.mem_append_right _ (List.mem_flatMap.mpr ?_))
        exact ⟨field, member, by simp⟩
    | @content _ _ field found member =>
        simp only [references, found, Except.toOption, Option.elim, Table.references]
        refine List.mem_append_left _ (List.mem_append_right _ (List.mem_flatMap.mpr ?_))
        exact ⟨field, member, by simp⟩
    | metatable found attached =>
        simp [references, found, Except.toOption, Table.references, attached]
    | environment found => simp [references, found, Except.toOption, Closure.references]
    | @upvalue _ c cell found member =>
        simp only [references, found, Except.toOption, Option.elim, Closure.references]
        refine List.mem_append_left _ (List.mem_append_left _ (List.mem_cons_of_mem _ ?_))
        exact List.mem_map.mpr ⟨cell, by simpa using member, rfl⟩
    | redirect found redirected =>
        simp [references, found, Except.toOption, Closure.references, redirected]
    | @constant _ c _ found member reference =>
        simp only [references, found, Except.toOption, Option.elim, Closure.references]
        exact List.mem_append_right _
          (PrototypeStore.mem_references.mpr ⟨c.prototype, .self _, member, reference⟩)
    | nestedConstant found nested nests member reference =>
        simp only [references, found, Except.toOption, Option.elim, Closure.references]
        exact List.mem_append_right _
          (PrototypeStore.mem_references.mpr ⟨_, .deeper nested nests, member, reference⟩)
    | bound found member => simp [references, found, Except.toOption, member]

end Heap
end HookMachine
