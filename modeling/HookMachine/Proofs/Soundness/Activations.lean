import HookMachine.Execution.Frame
import HookMachine.Proofs.Soundness.Primitives

/-!
Activations by the rules: all that one holds is valid. Moving values between registers keeps
that, and so does everything that other activations do meanwhile.
-/

namespace HookMachine

open Rules (Tracks Leads)

variable {rules : Rules} {own : List Guard} {m after : Machine}

/-- An activation runs a closure that exists. -/
def Machine.Runs (m : Machine) (frame : Frame) : Prop :=
  ∃ c, m.heap.closures.get frame.closure.handle = .ok c ∧ frame.prototype = c.prototype
    ∧ frame.upvalues = c.upvalues ∧ frame.environment = c.environment

/-- What an activation refers to is valid: its closure with all that it shows, its registers, its
extra arguments and the cells that it captured.
-/
structure Rules.ValidFrame (rules : Rules) (m : Machine) (frame : Frame) : Prop where
  runs : m.Runs frame
  closure : rules.Valid m (.closure frame.closure)
  prototype : rules.ValidPrototype m frame.prototype
  environment : rules.Valid m (.table frame.environment)
  upvalues : ∀ cell ∈ frame.upvalues, rules.ValidCell m cell
  registers : ∀ value ∈ frame.registers, rules.Valid m value
  extra : ∀ value ∈ frame.extra, rules.Valid m value
  captured : ∀ entry ∈ frame.captured, rules.ValidCell m entry.2

/-- The values that a fixed number of values is made from are valid. -/
theorem fit_valid {values : List Value} (valid : ∀ value ∈ values, rules.Valid m value) (n : Nat)
    : ∀ value ∈ fit n values, rules.Valid m value := by
  intro value member
  rcases List.mem_append.mp member with member | member
  · exact valid value (List.mem_of_mem_take member)
  · rw [List.eq_of_mem_replicate member]
    exact Rules.valid_nil

namespace Rules.ValidFrame

variable {frame : Frame}

theorem later (valid : rules.ValidFrame m frame) (later : rules.Later m after)
    : rules.ValidFrame after frame where
  runs := by
    obtain ⟨c, found, prototype, upvalues, environment⟩ := valid.runs
    obtain ⟨redirect, found⟩ := later.closure found
    exact ⟨_, found, prototype, upvalues, environment⟩
  closure := later.valid valid.closure
  prototype := later.prototype valid.prototype
  environment := later.valid valid.environment
  upvalues cell member := later.cell (valid.upvalues cell member)
  registers value member := later.valid (valid.registers value member)
  extra := later.all valid.extra
  captured entry member := later.cell (valid.captured entry member)

theorem read (valid : rules.ValidFrame m frame) (r : Nat) : rules.Valid m (frame.read r) := by
  unfold Frame.read
  rw [Array.getD_eq_getD_getElem?]
  rcases held : frame.registers[r]? with _ | value
  · exact valid_nil
  · exact valid.registers value (Array.mem_of_getElem? held)

theorem write (valid : rules.ValidFrame m frame) (r : Nat) {value : Value}
    (value_valid : rules.Valid m value)
    : rules.ValidFrame m (frame.write r value) := by
  unfold Frame.write
  split
  · refine { valid with registers := fun other member => ?_ }
    rcases Array.mem_or_eq_of_mem_setIfInBounds member with member | rfl
    · exact valid.registers other member
    · exact value_valid
  · refine { valid with registers := fun other member => ?_ }
    rcases Array.mem_push.mp member with member | rfl
    · rcases Array.mem_append.mp member with member | member
      · exact valid.registers other member
      · rw [(Array.mem_replicate.mp member).2]
        exact valid_nil
    · exact value_valid

theorem writeAll (valid : rules.ValidFrame m frame) (r : Nat) {values : List Value}
    (values_valid : ∀ value ∈ values, rules.Valid m value)
    : rules.ValidFrame m (frame.writeAll r values) := by
  induction values generalizing frame r with
  | nil => exact valid
  | cons value rest ih =>
      obtain ⟨first, others⟩ := List.forall_mem_cons.mp values_valid
      exact ih (valid.write r first) (r + 1) others

theorem skipIf (valid : rules.ValidFrame m frame) (condition : Bool)
    : rules.ValidFrame m (frame.skipIf condition) := by
  unfold Frame.skipIf
  split
  · exact { valid with }
  · exact valid

theorem span (valid : rules.ValidFrame m frame) (start count : Nat)
    : ∀ value ∈ frame.span start count, rules.Valid m value := by
  intro value member
  obtain ⟨r, _, rfl⟩ := List.mem_map.mp member
  exact valid.read r

theorem takeResults (valid : rules.ValidFrame m frame) (a c : Nat) {results : List Value}
    (results_valid : ∀ value ∈ results, rules.Valid m value)
    : rules.ValidFrame m (frame.takeResults a c results) := by
  unfold Frame.takeResults
  split
  · exact { valid.writeAll a results_valid with }
  · exact valid.writeAll a (fit_valid results_valid (c - 1))

end Rules.ValidFrame

/-- The activation of a valid closure with valid arguments is valid. -/
theorem Vm.openFrame_leads (sound : rules.Sound own m) {ref : ClosureRef}
    {arguments : List Value} (depth : Nat) (valid : rules.Valid m (.closure ref))
    (arguments_valid : ∀ value ∈ arguments, rules.Valid m value)
    : rules.Leads own (openFrame ref arguments depth) m
        fun frame after => rules.ValidFrame after frame := by
  refine (closure_leads sound valid).bind fun c after _ read => ?_
  obtain ⟨rfl, found⟩ := read
  refine (prototype_leads sound c.prototype).bind fun p after _ read => ?_
  obtain ⟨rfl, rfl⟩ := read
  have good := sound.closures found
  refine .pure sound
    ⟨⟨c, found, rfl, rfl, rfl⟩, valid, good.prototype, good.environment, good.upvalues, fun value member => ?_,
      fun value member => ?_, by simp⟩
  · refine fit_valid (fun value member => ?_) _ value (List.mem_toArray.mp member)
    exact arguments_valid value (List.mem_of_mem_take member)
  · split at member
    · exact arguments_valid value (List.mem_of_mem_drop member)
    · cases member

end HookMachine
