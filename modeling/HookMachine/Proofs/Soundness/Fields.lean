import HookMachine.Execution.Field
import HookMachine.Proofs.Soundness.Primitives

/-!
Reading and writing fields by the rules: what an access is sent on to was found in a table, and
so is valid.
-/

namespace HookMachine

open Rules (Tracks Leads)

/-- Calls by the rules: of valid values for valid closures, from within a call. -/
def Rules.Conducts (rules : Rules) (invoke : Invoke) : Prop :=
  ∀ ⦃own m f arguments caller⦄ (depth : Nat), rules.Sound own m → 0 < m.activeCalls
    → rules.Valid m f → (∀ value ∈ arguments, rules.Valid m value) → rules.ValidCaller m caller
    → rules.Leads own (invoke f arguments caller depth) m
        fun results after => ∀ value ∈ results, rules.Valid after value

variable {rules : Rules} {own : List Guard} {m : Machine} {invoke : Invoke}

theorem Rules.validCaller_none : rules.ValidCaller m none := by
  simp [Rules.ValidCaller]

namespace Vm

theorem handler_leads (sound : rules.Sound own m) {t : Table} (name : String)
    (references : ∀ value ∈ t.references, rules.Valid m value)
    : rules.Leads own (handler t name) m
        fun value after => m = after ∧ rules.Valid m value := by
  unfold handler
  split
  · exact .pure sound ⟨rfl, Rules.valid_nil⟩
  · rename_i mt attached
    have mt_valid := (Table.forall_references .. |>.mp references).2.2 mt attached
    refine (table_leads sound mt_valid).bind fun t after _ read => ?_
    obtain ⟨rfl, found⟩ := read
    refine .pure sound ⟨rfl, .orNil fun value held => ?_⟩
    have held : t.get? (.string name) = some value := held
    exact sound.references found value (Table.mem_references_of_get? held)

theorem metamethod_leads (sound : rules.Sound own m) {value : Value} (name : String)
    (valid : rules.Valid m value)
    : rules.Leads own (metamethod value name) m
        fun value after => m = after ∧ rules.Valid m value := by
  cases value with
  | table ref =>
      refine (table_leads sound valid).bind fun t after _ read => ?_
      obtain ⟨rfl, found⟩ := read
      exact handler_leads sound name (sound.references found)
  | _ => exact .pure sound ⟨rfl, Rules.valid_nil⟩

theorem headD_valid {values : List Value} (valid : ∀ value ∈ values, rules.Valid m value)
    : rules.Valid m (values.headD .nil) := by
  cases values with
  | nil => exact Rules.valid_nil
  | cons value rest => exact valid value (.head _)

theorem indexChain_leads (conducts : rules.Conducts invoke) (sound : rules.Sound own m)
    (active : 0 < m.activeCalls) {key object : Value} (depth limit : Nat)
    (key_valid : rules.Valid m key) (valid : rules.Valid m object)
    : rules.Leads own (indexChain invoke key depth limit object) m
        fun value after => rules.Valid after value := by
  induction limit generalizing object with
  | zero => exact .fail sound (.of_blameless rfl) (.refl _)
  | succ limit ih =>
      cases object with
      | table ref =>
          refine (table_leads sound valid).bind fun t after _ read => ?_
          obtain ⟨rfl, found⟩ := read
          have references := sound.references found
          split
          · rename_i value held
            exact .pure sound (references value (Table.mem_references_of_get? held))
          · refine (handler_leads sound _ references).bind fun next after _ read => ?_
            obtain ⟨rfl, next_valid⟩ := read
            split
            · exact .pure sound Rules.valid_nil
            · split
              · refine (conducts (depth + 1) sound active next_valid ?_ Rules.validCaller_none).bind
                  fun results after passed results_valid => ?_
                · simpa using ⟨valid, key_valid⟩
                · exact .pure passed.sound (headD_valid results_valid)
              · exact ih next_valid
      | _ => exact .fail sound (.of_blameless rfl) (.refl _)

theorem index_leads (conducts : rules.Conducts invoke) (sound : rules.Sound own m)
    (active : 0 < m.activeCalls) {object key : Value} (depth : Nat)
    (valid : rules.Valid m object) (key_valid : rules.Valid m key)
    : rules.Leads own (index invoke object key depth) m
        fun value after => rules.Valid after value :=
  indexChain_leads conducts sound active depth maxChain key_valid valid

theorem writeHandler_leads (sound : rules.Sound own m) {t : Table} (key : Value)
    (references : ∀ value ∈ t.references, rules.Valid m value)
    : rules.Leads own (writeHandler t key) m
        fun value after => m = after ∧ rules.Valid m value := by
  unfold writeHandler
  split
  · exact .pure sound ⟨rfl, Rules.valid_nil⟩
  · exact handler_leads sound _ references

theorem assignChain_leads (conducts : rules.Conducts invoke) (sound : rules.Sound own m)
    (active : 0 < m.activeCalls) {key value object : Value} (depth limit : Nat)
    (named : key.isKey = true) (key_valid : rules.Valid m key) (value_valid : rules.Valid m value)
    (valid : rules.Valid m object)
    : rules.Leads own (assignChain invoke key value depth limit object) m
        fun _ _ => True := by
  induction limit generalizing object with
  | zero => exact .fail sound (.of_blameless rfl) (.refl _)
  | succ limit ih =>
      cases object with
      | table ref =>
          refine (checkOwner_leads sound value_valid).bind fun _ after _ checked => ?_
          obtain ⟨rfl, owned⟩ := checked
          refine (table_leads sound valid).bind fun t after _ read => ?_
          obtain ⟨rfl, found⟩ := read
          refine (writeHandler_leads sound key (sound.references found)).bind
            fun next after _ read => ?_
          obtain ⟨rfl, next_valid⟩ := read
          split
          · split
            · exact .fail sound (.of_blameless rfl) (.refl _)
            · rename_i writable
              have writable := Bool.eq_false_iff.mpr writable
              exact setField_leads sound found writable named owned valid key_valid value_valid
          · split
            · refine (conducts (depth + 1) sound active next_valid ?_ Rules.validCaller_none).bind
                fun results after passed _ => ?_
              · simpa using ⟨valid, key_valid, value_valid⟩
              · exact .pure passed.sound trivial
            · exact ih next_valid
      | _ => exact .fail sound (.of_blameless rfl) (.refl _)

theorem assign_leads (conducts : rules.Conducts invoke) (sound : rules.Sound own m)
    (active : 0 < m.activeCalls) {object key value : Value} (depth : Nat)
    (valid : rules.Valid m object) (key_valid : rules.Valid m key)
    (value_valid : rules.Valid m value)
    : rules.Leads own (assign invoke object key value depth) m fun _ _ => True := by
  refine (checkKey_leads sound key).bind fun _ after _ checked => ?_
  obtain ⟨rfl, named⟩ := checked
  exact assignChain_leads conducts sound active depth maxChain named key_valid value_valid valid

end Vm
end HookMachine
