import HookMachine.Inspection.Filter
import HookMachine.Proofs.Soundness.Primitives
import HookMachine.Reflection

/-!
Looking into functions and through the heap by the rules: what is found is valid.
-/

namespace HookMachine

open Rules (Tracks Leads)

variable {rules : Rules} {own : List Guard} {m : Machine}

-----------------------------------------------------------------------------------------
-- Looking into functions
-----------------------------------------------------------------------------------------

namespace Reflection

theorem prototypeOf_leads (sound : rules.Sound own m) {f : Value} (valid : rules.Valid m f)
    : rules.Leads own (prototypeOf f) m
        fun answer after => m = after ∧ ∀ ref, answer = some ref → rules.ValidPrototype m ref := by
  cases f with
  | closure ref =>
      refine (Vm.closure_leads sound valid).lift.bind fun c after _ read => ?_
      obtain ⟨rfl, found⟩ := read
      refine .pure sound ⟨rfl, ?_⟩
      rintro _ ⟨⟩
      exact (sound.closures found).prototype
  | native ref => exact .pure sound ⟨rfl, by simp⟩
  | _ => exact .fail sound (Rules.tolerates_refused _) (.refl _)

theorem inspect_leads {α : Type} (sound : rules.Sound own m) {f : Value}
    (valid : rules.Valid m f) (view : Prototype → α)
    : rules.Leads own (inspect f view) m
        fun answer after => m = after
          ∧ ∀ seen, answer = some seen
            → ∃ ref, rules.ValidPrototype m ref ∧ seen = view (m.prototypes.get ref) := by
  refine (prototypeOf_leads sound valid).bind fun answer after _ read => ?_
  obtain ⟨rfl, known⟩ := read
  cases answer with
  | none => exact .pure sound ⟨rfl, by simp⟩
  | some ref =>
      refine (Vm.prototype_leads sound ref).lift.bind fun p after _ read => ?_
      obtain ⟨rfl, rfl⟩ := read
      refine .pure sound ⟨rfl, ?_⟩
      rintro _ ⟨⟩
      exact ⟨ref, known ref rfl, rfl⟩

theorem constants_leads (sound : rules.Sound own m) {f : Value} (valid : rules.Valid m f)
    : rules.Leads own (constants f) m
        fun answer after => ∀ values, answer = some values
          → ∀ value ∈ values, rules.Valid after value := by
  refine (inspect_leads sound valid _).mono fun answer after _ read values same => ?_
  obtain ⟨rfl, known⟩ := read
  obtain ⟨ref, prototype, rfl⟩ := known values same
  exact fun value member => prototype.constant (Array.mem_toList_iff.mp member)

theorem constant_leads (sound : rules.Sound own m) {f : Value} (valid : rules.Valid m f)
    (position : Int)
    : rules.Leads own (constant f position) m
        fun answer after => ∀ value, answer = some value → rules.Valid after value := by
  refine (inspect_leads sound valid _).bind fun found after _ read => ?_
  obtain ⟨rfl, known⟩ := read
  refine .pure sound fun value same => ?_
  cases found with
  | none => cases same
  | some held =>
      obtain ⟨ref, prototype, view⟩ := known held rfl
      have seen : held = some value := same
      rw [seen] at view
      obtain ⟨i, _, rfl⟩ := Option.map_eq_some_iff.mp view.symm
      rw [Array.getD_eq_getD_getElem?]
      rcases hit : (m.prototypes.get ref).constants[i]? with _ | constant
      · exact Rules.valid_nil
      · exact prototype.constant (Array.mem_of_getElem? hit)

/-- A constant is overwritten by a valid value, so valid prototypes stay valid. -/
theorem setConstant_leads (sound : rules.Sound own m) {f value : Value}
    (valid : rules.Valid m f) (position : Int) (value_valid : rules.Valid m value)
    : rules.Leads own (setConstant f position value) m fun _ _ => True := by
  refine (Vm.checkOwner_leads sound value_valid).lift.bind fun _ after _ checked => ?_
  obtain ⟨rfl, _⟩ := checked
  refine (prototypeOf_leads sound valid).bind fun answer after _ read => ?_
  obtain ⟨rfl, _⟩ := read
  cases answer with
  | none => exact .pure sound trivial
  | some ref =>
      refine (Vm.prototype_leads sound ref).lift.bind fun p after _ read => ?_
      obtain ⟨rfl, rfl⟩ := read
      split
      · exact .pure sound trivial
      · rename_i i _
        have changed := sound.changePrototypes (m.prototypes.setConstant ref i value)
          fun other known => by
            refine ⟨?_, fun held member => ?_⟩
            · rw [PrototypeStore.size_setConstant]
              exact known.bound
            · rcases PrototypeStore.mem_references_setConstant member with rfl | old
              · exact value_valid
              · exact known.references held old
        exact .bind (.step changed) fun _ _ done _ => .pure done.sound trivial

theorem info_leads (sound : rules.Sound own m) {f : Value} (valid : rules.Valid m f)
    : rules.Leads own (info f) m fun _ _ => True :=
  (inspect_leads sound valid _).mono fun _ _ _ _ => trivial

theorem digest_leads (sound : rules.Sound own m) {f : Value} (valid : rules.Valid m f)
    : rules.Leads own (digest f) m fun _ _ => True :=
  (inspect_leads sound valid _).mono fun _ _ _ _ => trivial

/-- A nested prototype comes to life in an environment that exists. -/
theorem nested_leads (sound : rules.Sound own m) {caller : Option ClosureRef} {f : Value}
    (caller_valid : rules.ValidCaller m caller) (valid : rules.Valid m f) (position : Int)
    (activate : Bool)
    : rules.Leads own (nested caller f position activate) m
        fun answer after => ∀ ref, answer = some (.closure ref)
          → rules.Valid after (.closure ref) := by
  cases f with
  | closure ref =>
      refine (Vm.closure_leads sound valid).lift.bind fun c after _ read => ?_
      obtain ⟨rfl, found⟩ := read
      refine (Vm.prototype_leads sound _).lift.bind fun p after _ read => ?_
      obtain ⟨rfl, rfl⟩ := read
      split
      · exact .pure sound (by simp)
      · rename_i child hit
        obtain ⟨i, _, hit⟩ := Option.bind_eq_some_iff.mp hit
        have child_valid : rules.ValidPrototype m child :=
          (sound.closures found).prototype.nested (Array.mem_of_getElem? hit)
        split
        · have home : rules.Valid m (.closure (caller.getD ref)) := by
            cases caller with
            | none => exact valid
            | some owner => exact caller_valid owner rfl
          refine (Vm.closure_leads sound home).lift.bind fun owner after _ read => ?_
          obtain ⟨rfl, held⟩ := read
          have made := Vm.instantiate_leads sound (some owner.environment) child_valid (by
            rintro _ ⟨⟩
            exact (sound.closures held).environment)
          refine made.lift.bind fun closure m₁ made closure_valid => ?_
          refine .pure made.sound ?_
          rintro _ ⟨⟩
          exact closure_valid
        · refine (Vm.prototype_leads sound child).lift.bind fun p after _ read => ?_
          obtain ⟨rfl, _⟩ := read
          exact .pure sound (by simp)
  | _ =>
      refine (prototypeOf_leads sound valid).bind fun answer after _ read => ?_
      obtain ⟨rfl, _⟩ := read
      exact .pure sound (by simp)

theorem wrap_leads (sound : rules.Sound own m) {f : Value} (valid : rules.Valid m f)
    : rules.Leads own (wrap f) m fun wrapper after => rules.Valid after wrapper := by
  cases f with
  | native ref => exact .pure sound valid
  | closure ref =>
      refine (Vm.functionName_leads sound valid).lift.bind fun name after _ same => ?_
      subst same
      have wrapper : rules.SoundNative m
          { name := name.getD "wrapped", body := .wrapper (.closure ref), bound := [.closure ref] } :=
        ⟨rfl, by simpa using valid, .head _⟩
      refine (Vm.createNative_leads sound wrapper).lift.bind fun native m₁ made native_valid => ?_
      exact .pure made.sound native_valid
  | _ => exact .fail sound (Rules.tolerates_refused _) (.refl _)

theorem isRuntimeFunction_leads (sound : rules.Sound own m) (f : Value)
    : rules.Leads own (isRuntimeFunction f) m fun _ _ => True := by
  cases f with
  | native ref => exact .pure sound trivial
  | closure ref => exact .get (.pure sound trivial)
  | _ => exact .fail sound (Rules.tolerates_refused _) (.refl _)

end Reflection

-----------------------------------------------------------------------------------------
-- Looking through the heap
-----------------------------------------------------------------------------------------

theorem isLive_of_mem_toList {α : Type} {arena : Arena α} {entry : Handle × α}
    (listed : entry ∈ arena.toList)
    : arena.contains entry.1 = true :=
  Arena.contains_iff.mpr ⟨entry.2, Arena.mem_toList.mp listed⟩

theorem valid_of_mem_objects {value : Value} {tables : Bool}
    (listed : value ∈ m.heap.objects tables)
    : rules.Valid m value := by
  simp only [Heap.objects, List.mem_append, List.mem_map] at listed
  rcases listed with (⟨entry, held, rfl⟩ | ⟨entry, held, rfl⟩) | listed
  · exact .of_live rfl (isLive_of_mem_toList held)
  · exact .of_live rfl (isLive_of_mem_toList held)
  · split at listed
    · obtain ⟨entry, held, rfl⟩ := List.mem_map.mp listed
      exact .of_live rfl (isLive_of_mem_toList held)
    · cases listed

theorem valid_of_mem_filter {value : Value} {kind : ObjectKind} {criteria : Criteria}
    (listed : value ∈ Inspection.filter m kind criteria)
    : rules.Valid m value := by
  cases kind with
  | callable =>
      rcases List.mem_append.mp listed with listed | listed <;>
      · obtain ⟨entry, held, rfl⟩ := List.mem_map.mp listed
        exact .of_live rfl (isLive_of_mem_toList (List.mem_filter.mp held).1)
  | container =>
      obtain ⟨entry, held, rfl⟩ := List.mem_map.mp listed
      exact .of_live rfl (isLive_of_mem_toList (List.mem_filter.mp held).1)

theorem Rules.Sound.valid_of_mem_retained (sound : rules.Sound own m) {value : Value}
    (listed : value ∈ m.heap.retained.toList.map (·.2))
    : rules.Valid m value := by
  obtain ⟨entry, held, rfl⟩ := List.mem_map.mp listed
  exact sound.retained (Arena.mem_toList.mp held)

end HookMachine
