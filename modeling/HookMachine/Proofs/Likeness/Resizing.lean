import HookMachine.Proofs.Likeness.Mirrors

/-!
Windows of other sizes. A register that the code has not written holds nil whether the window of
the activation reaches it or not, so nothing can tell how large the windows of prototypes are: a
call comes to the same whatever windows the prototypes of a machine ask for.
-/

namespace HookMachine

-----------------------------------------------------------------------------------------
-- Stores
-----------------------------------------------------------------------------------------

namespace PrototypeStore

/-- The store in which the first prototypes ask for other windows, in order. -/
def resized (store : PrototypeStore) (windows : Array UInt8) : PrototypeStore where
  prototypes := store.prototypes.mapIdx fun i p => { p with window := windows.getD i p.window }
  ordered := by
    intro index q held
    rw [Array.getElem?_mapIdx] at held
    obtain ⟨p, before, rfl⟩ := Option.map_eq_some_iff.mp held
    exact store.ordered index p before

variable {store : PrototypeStore} {windows : Array UInt8}

@[simp]
theorem size_resized : (store.resized windows).prototypes.size = store.prototypes.size :=
  Array.size_mapIdx

theorem get_resized (store : PrototypeStore) (windows : Array UInt8) (ref : PrototypeRef)
    : ∃ window, (store.resized windows).get ref = { store.get ref with window } := by
  unfold get resized
  rw [Array.getD_eq_getD_getElem?, Array.getD_eq_getD_getElem?, Array.getElem?_mapIdx]
  cases store.prototypes[ref.index]? with
  | none => exact ⟨_, rfl⟩
  | some p => exact ⟨_, rfl⟩

example : (((insert {} {}).2.resized #[7]).get ⟨0⟩).window = 7 := rfl

theorem eq_of_prototypes {first second : PrototypeStore}
    (same : first.prototypes = second.prototypes)
    : first = second := by
  cases first
  cases second
  cases same
  rfl

/-- A prototype that comes later asks for its own window. -/
theorem insert_resized (fits : windows.size ≤ store.prototypes.size) (p : Prototype)
    : ((store.resized windows).insert p).2 = (store.insert p).2.resized windows := by
  refine eq_of_prototypes ?_
  simp only [insert, resized, Array.size_mapIdx, Array.mapIdx_push]
  have beyond : windows.getD store.prototypes.size p.window = p.window := by
    rw [Array.getD_eq_getD_getElem?, Array.getElem?_eq_none fits]
    rfl
  rw [beyond]

theorem setConstant_resized (ref : PrototypeRef) (position : Nat) (value : Value)
    : (store.resized windows).setConstant ref position value
      = (store.setConstant ref position value).resized windows := by
  refine eq_of_prototypes (Array.ext_getElem? fun i => ?_)
  simp only [setConstant, resized, Array.getElem?_modify, Array.getElem?_mapIdx]
  split <;> simp [Option.map_map, Function.comp_def]

/-- What a prototype refers to: its own constants, then what its nested prototypes refer to. -/
theorem references_eq (store : PrototypeStore) (ref : PrototypeRef)
    : store.references ref
      = (store.get ref).constants.toList.filter Value.isReference
        ++ (store.get ref).nested.toList.flatMap store.references := by
  rw [references]
  simp

/-- Windows refer to nothing, by induction over the nesting. -/
theorem references_resized (ref : PrototypeRef)
    : (store.resized windows).references ref = store.references ref := by
  obtain ⟨window, same⟩ := store.get_resized windows ref
  rw [references_eq, references_eq, same]
  refine congrArg _ (List.flatMap_congr fun child member => ?_)
  exact references_resized child
termination_by ref.index
decreasing_by exact nested_lt (Array.mem_toList_iff.mp member)

end PrototypeStore

-----------------------------------------------------------------------------------------
-- Collections
-----------------------------------------------------------------------------------------

namespace Heap

variable {around other : Surroundings}

/-- A collection looks at prototypes for what they refer to only. -/
theorem references_congr (cells : around.cells = other.cells)
    (prototypes : ∀ ref, around.prototypes.references ref = other.prototypes.references ref)
    (heap : Heap) (object : ObjectRef)
    : heap.references around object = heap.references other object := by
  cases object with
  | table ref => rfl
  | closure ref =>
      have same : Closure.references around = Closure.references other := by
        funext c
        simp only [Closure.references, cells, prototypes]
      exact congrArg ((heap.closures.get ref.handle).toOption.elim []) same
  | native ref => rfl

theorem markAll_congr (cells : around.cells = other.cells)
    (prototypes : ∀ ref, around.prototypes.references ref = other.prototypes.references ref)
    (heap : Heap) (gray : List Value)
    : heap.markAll around gray = heap.markAll other gray := by
  fun_induction markAll around heap gray with
  | case1 heap => rw [markAll]
  | case2 heap value gray names ih =>
      rw [markAll, names]
      exact ih
  | case3 heap value gray object names white ih =>
      rw [markAll, names, ih, references_congr cells prototypes]
      exact (if_pos white).symm
  | case4 heap value gray object names white ih =>
      rw [markAll, names, ih]
      exact (if_neg white).symm

theorem collect_congr (cells : around.cells = other.cells)
    (prototypes : ∀ ref, around.prototypes.references ref = other.prototypes.references ref)
    (heap : Heap) (roots : List Value)
    : heap.collect around roots = heap.collect other roots := by
  unfold collect
  rw [markAll_congr cells prototypes]

end Heap

-----------------------------------------------------------------------------------------
-- Machines
-----------------------------------------------------------------------------------------

namespace Machine

/-- The machine in which the first prototypes ask for other windows, in order. -/
def resized (m : Machine) (windows : Array UInt8) : Machine :=
  { m with prototypes := m.prototypes.resized windows }

variable {allowed : Native → Prop} {change : Machine → Machine} {m : Machine}
  {windows : Array UInt8}

/-- No write looks at windows, and prototypes that come later keep their own. -/
theorem Writes.resized (writes : Writes allowed change)
    (fits : windows.size ≤ m.prototypes.prototypes.size)
    : change (m.resized windows) = (change m).resized windows
      ∧ windows.size ≤ (change m).prototypes.prototypes.size := by
  cases writes with
  | insertPrototype p =>
      refine ⟨?_, ?_⟩
      · simp only [Machine.resized, PrototypeStore.insert_resized fits]
      · simp only [PrototypeStore.insert, Array.size_push]
        omega
  | setConstant ref position value =>
      refine ⟨?_, ?_⟩
      · simp only [Machine.resized, PrototypeStore.setConstant_resized]
      · simpa [PrototypeStore.setConstant] using fits
  | _ => exact ⟨rfl, fits⟩

theorem Records.resized (records : Records change)
    (fits : windows.size ≤ m.prototypes.prototypes.size)
    : change (m.resized windows) = (change m).resized windows
      ∧ windows.size ≤ (change m).prototypes.prototypes.size := by
  cases records <;> exact ⟨rfl, fits⟩

end Machine

-----------------------------------------------------------------------------------------
-- Runs
-----------------------------------------------------------------------------------------

namespace Likeness

variable {windows : Array UInt8}

/-- A machine that has as many prototypes as there are windows, and the same with these windows. -/
def sizes (windows : Array UInt8) : Likeness Unit :=
  mirrored .identity (·.resized windows) fun m => windows.size ≤ m.prototypes.prototypes.size

theorem sizes_shown {i : Unit} {m n : Machine} (alike : (sizes windows).machines i m n)
    : Tie.identity.Machines m n := by
  obtain ⟨rfl, -⟩ := alike
  have whole := Tie.identity_whole
  have twin : (twins Pace.same fun (_ : Unit) _ => True).machines () m m :=
    ⟨m.config.limits, m.steps, rfl, ⟨rfl, rfl⟩, trivial⟩
  have same : Tie.identity.Machines m m := twins_shown twin
  have prototypes (p : PrototypeRef)
      : Tie.identity.Prototypes (m.prototypes.get p) ((m.prototypes.resized windows).get p) := by
    obtain ⟨window, resized⟩ := m.prototypes.get_resized windows p
    exact resized ▸ { whole.prototypes_refl (m.prototypes.get p) with }
  exact { same with
    prototypes _ := prototypes _
    prototypeCount := PrototypeStore.size_resized.symm }

theorem sizes_seamless (windows : Array UInt8) : (sizes windows).Seamless := by
  have whole := Tie.identity_whole
  refine seamless_of_records whole (lawful_of_writes whole sizes_shown fun writes => ?_)
    fun records => ?_
  · rintro ⟨rfl, fits⟩
    exact writes.resized fits
  · rintro ⟨rfl, fits⟩
    exact records.resized fits

theorem sizes_mirrors (windows : Array UInt8)
    : Mirrors .identity (·.resized windows) fun m =>
        windows.size ≤ m.prototypes.prototypes.size where
  whole := Tie.identity_whole
  seamless := sizes_seamless windows
  depth _ := rfl
  redirects _ := rfl
  instructions _ := rfl
  counts _ _ := rfl
  enter _ := rfl
  leave _ _ := rfl
  still _ _ fits := fits
  moves {m r} invoke moves fits := by
    have collected : m.heap.collect (m.resized windows).surroundings [.table m.globals]
        = m.heap.collect m.surroundings [.table m.globals] := by
      refine Heap.collect_congr ?_ (fun ref => ?_) ..
      · rfl
      · exact PrototypeStore.references_resized ref
    obtain ⟨o, heap, guards, ran, also⟩ :=
      answer_moves (m := m) (n := m.resized windows) moves invoke rfl rfl rfl collected
    exact ⟨o, _, ran, also, fits⟩

end Likeness

/-- Whatever windows the prototypes of a machine ask for, every call and every session of the host
comes to the same results or the same failure, and leaves the same machine but for the windows:
the same heap, and as many instructions counted. That goes for every limit on instructions, so no
window makes a call execute more of them or fewer.
-/
theorem Machine.windows_hidden (m : Machine)
    (windows : Vector UInt8 m.prototypes.prototypes.size) (fuel : Nat)
    : (∀ f arguments caller depth,
        Vm.call fuel f arguments caller depth (m.resized windows.toArray)
          = Vm.imaged (·.resized windows.toArray) (Vm.call fuel f arguments caller depth m))
      ∧ ∀ session : HostProgram,
          (Plan.program none 0 session).run (Vm.call fuel) (m.resized windows.toArray)
            = Vm.imaged (·.resized windows.toArray)
                ((Plan.program none 0 session).run (Vm.call fuel) m) := by
  have fits : windows.toArray.size ≤ m.prototypes.prototypes.size :=
    Nat.le_of_eq windows.size_toArray
  have mirrors := Likeness.sizes_mirrors windows.toArray
  exact ⟨mirrors.call fits fuel, mirrors.session fits rfl fuel⟩

end HookMachine
