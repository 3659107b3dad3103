import HookMachine.Config.Reader
import Mathlib.Logic.Function.Basic

/-!
The values of settings: which texts a setting takes, and what becomes of the settings then. What is
shown of a setting is a text that it takes, and taking it gives back what was shown.
-/

namespace HookMachine

variable {config next other : Config} {setting : Setting} {cs : List Char} {bound n : Nat}

-----------------------------------------------------------------------------------------
-- Numerals
-----------------------------------------------------------------------------------------

/-- The text spells the number: decimal digits, before which there may be a plus sign. -/
def Config.Numeral (cs : List Char) (n : Nat) : Prop :=
  ∃ digits, (cs = digits ∨ cs = '+' :: digits) ∧ digits ≠ []
    ∧ (∀ c ∈ digits, c.isDigit = true) ∧ Nat.ofDigitChars 10 digits 0 = n

namespace Config

theorem isNumeral_iff {digits : List Char}
    : Decimal.isNumeral digits = true ↔ digits ≠ [] ∧ ∀ c ∈ digits, c.isDigit = true := by
  simp [Decimal.isNumeral]

theorem digits?_eq_some {digits : List Char}
    : Decimal.digits? digits = some n
      ↔ digits ≠ [] ∧ (∀ c ∈ digits, c.isDigit = true) ∧ Nat.ofDigitChars 10 digits 0 = n := by
  have spelled : Decimal.natural digits = Nat.ofDigitChars 10 digits 0 := rfl
  rw [Decimal.digits?, spelled, Option.ite_none_right_eq_some, isNumeral_iff, and_assoc,
    Option.some_inj]

/-- Numbers below the bound are read from their numerals, and from nothing else. -/
theorem natural?_eq_some : natural? bound cs = some n ↔ Numeral cs n ∧ n < bound := by
  unfold natural?
  rw [Option.filter_eq_some_iff, decide_eq_true_eq]
  refine and_congr_left fun _ => ?_
  split
  · rename_i rest
    rw [digits?_eq_some]
    constructor
    · exact fun spelled => ⟨rest, .inr rfl, spelled⟩
    · rintro ⟨digits, rfl | same, spelled⟩
      · exact absurd (spelled.2.1 '+' (by simp)) (by decide)
      · exact (List.cons.inj same).2 ▸ spelled
  · rename_i unsigned
    rw [digits?_eq_some]
    constructor
    · exact fun spelled => ⟨cs, .inl rfl, spelled⟩
    · rintro ⟨digits, rfl | rfl, spelled⟩
      · exact spelled
      · exact absurd rfl (unsigned digits)

/-- What is shown of a number is a numeral for it. -/
theorem numeral_toString (n : Nat) : Numeral (toString n).toList n := by
  refine ⟨_, .inl rfl, ?_, ?_, ?_⟩
  all_goals rw [Nat.toString_eq_repr, Nat.toList_repr]
  · exact Nat.toDigits_ne_nil
  · exact fun c => Nat.isDigit_of_mem_toDigits (by decide) (by decide)
  · exact Nat.ofDigitChars_ten_toDigits

end Config

-----------------------------------------------------------------------------------------
-- Taking values
-----------------------------------------------------------------------------------------

theorem LogLevel.name_injective : Function.Injective LogLevel.name := by
  intro a b same
  cases a <;> cases b <;> first | rfl | exact absurd same (by decide)

/-- A log level is found by its name in any case. -/
theorem LogLevel.ofName?_eq_some {name : String} {level : LogLevel}
    : ofName? name = some level ↔ name.toList.map Char.toLower = level.name.toList := by
  rw [← String.toList_map, String.toList_inj]
  constructor
  · intro found
    simpa [eq_comm] using List.find?_some found
  · intro named
    have one (level : LogLevel)
        : all.find? (fun other => other.name = level.name) = some level := by
      cases level <;> rfl
    unfold ofName?
    rw [named]
    exact one level

/-- The setting takes the text for a value. -/
def Setting.Takes (setting : Setting) (cs : List Char) : Prop :=
  match setting with
  | .callDepth | .instructionLimit | .redirectDepth =>
      ∃ n, Config.Numeral cs n ∧ n < UInt64.size
  | .defaultIdentity | .privilegedIdentity => ∃ n, Config.Numeral cs n ∧ n ≤ maxLevel
  | .logLevel => ∃ level : LogLevel, cs.map Char.toLower = level.name.toList

namespace Config

/-- A value is assigned just if the setting takes it. -/
theorem isSome_assign? : (config.assign? setting cs).isSome = true ↔ setting.Takes cs := by
  have word : (∃ n, natural? UInt64.size cs = some n) ↔ ∃ n, Numeral cs n ∧ n < UInt64.size :=
    exists_congr fun _ => natural?_eq_some
  have level : (∃ n, natural? (maxLevel + 1) cs = some n) ↔ ∃ n, Numeral cs n ∧ n ≤ maxLevel :=
    exists_congr fun _ => natural?_eq_some.trans (and_congr_right' Nat.lt_succ_iff)
  have name : (∃ level, LogLevel.ofName? (String.ofList cs) = some level)
      ↔ ∃ level : LogLevel, cs.map Char.toLower = level.name.toList :=
    exists_congr fun _ => by rw [LogLevel.ofName?_eq_some, String.toList_ofList]
  cases setting <;>
    simp only [assign?, Setting.Takes, Option.isSome_map, Option.isSome_iff_exists, word, level,
      name]

instance (setting : Setting) (cs : List Char) : Decidable (setting.Takes cs) :=
  decidable_of_iff ((assign? {} setting cs).isSome = true) isSome_assign?

/-- Identity levels do not exceed the highest one. -/
structure Leveled (config : Config) : Prop where
  default : config.defaultLevel ≤ maxLevel
  privileged : config.privilegedLevel ≤ maxLevel

/-- A value that is taken leaves the levels in bounds. -/
theorem Leveled.assign? (leveled : config.Leveled) (taken : config.assign? setting cs = some next)
    : next.Leveled := by
  cases setting with
  | callDepth | instructionLimit | redirectDepth | logLevel =>
      obtain ⟨_, _, rfl⟩ := Option.map_eq_some_iff.mp taken
      exact ⟨leveled.default, leveled.privileged⟩
  | defaultIdentity =>
      obtain ⟨_, level, rfl⟩ := Option.map_eq_some_iff.mp taken
      exact ⟨Nat.lt_succ_iff.mp (natural?_eq_some.mp level).2, leveled.privileged⟩
  | privilegedIdentity =>
      obtain ⟨_, level, rfl⟩ := Option.map_eq_some_iff.mp taken
      exact ⟨leveled.default, Nat.lt_succ_iff.mp (natural?_eq_some.mp level).2⟩

-----------------------------------------------------------------------------------------
-- Showing values
-----------------------------------------------------------------------------------------

/-- The numbers fit into the words that hold them. -/
structure Ranged (config : Config) : Prop where
  callDepth : config.limits.callDepth < UInt64.size
  instructions : config.limits.instructions < UInt64.size
  redirectDepth : config.limits.redirectDepth < UInt64.size

theorem get?_name (config : Config) (setting : Setting)
    : config.get? setting.name = some (config.text setting) := by
  have found : Setting.ofName? setting.name = some setting := by cases setting <;> rfl
  rw [get?, found]
  rfl

/-- Settings that are shown alike are the same. -/
theorem eq_of_text (same : ∀ setting, config.text setting = other.text setting)
    : config = other := by
  have number {m n : Nat} (shown : toString m = toString n) : m = n := by
    have digits : Nat.toDigits 10 m = Nat.toDigits 10 n := by
      simpa only [Nat.toString_eq_repr, Nat.toList_repr] using congrArg String.toList shown
    rw [← Nat.ofDigitChars_ten_toDigits (n := m), digits, Nat.ofDigitChars_ten_toDigits]
  have callDepth := number (same .callDepth)
  have instructions := number (same .instructionLimit)
  have redirectDepth := number (same .redirectDepth)
  have default := number (same .defaultIdentity)
  have privileged := number (same .privilegedIdentity)
  have logLevel := LogLevel.name_injective (same .logLevel)
  obtain ⟨⟨_, _, _⟩, _, _, _⟩ := config
  obtain ⟨⟨_, _, _⟩, _, _, _⟩ := other
  simp_all

/-- A value changes no other setting. -/
theorem text_assign?_of_ne {apart : Setting} (taken : config.assign? setting cs = some next)
    (different : apart ≠ setting)
    : next.text apart = config.text apart := by
  cases setting <;>
  · obtain ⟨_, _, rfl⟩ := Option.map_eq_some_iff.mp taken
    cases apart <;> first | rfl | exact absurd rfl different

/-- What is shown of a setting makes it what it was where it was shown. -/
theorem text_assign? (ranged : other.Ranged) (leveled : other.Leveled)
    (taken : config.assign? setting (other.text setting).toList = some next)
    : next.text setting = other.text setting := by
  have read {bound n : Nat} (small : n < bound) : natural? bound (toString n).toList = some n :=
    natural?_eq_some.mpr ⟨numeral_toString n, small⟩
  have named
      : LogLevel.ofName? (String.ofList other.logLevel.name.toList) = some other.logLevel := by
    rw [LogLevel.ofName?_eq_some, String.toList_ofList]
    cases other.logLevel <;> decide
  cases setting with
  | callDepth =>
      rw [assign?, text, read ranged.callDepth] at taken
      cases taken
      rfl
  | instructionLimit =>
      rw [assign?, text, read ranged.instructions] at taken
      cases taken
      rfl
  | redirectDepth =>
      rw [assign?, text, read ranged.redirectDepth] at taken
      cases taken
      rfl
  | defaultIdentity =>
      rw [assign?, text, read (Nat.lt_succ_iff.mpr leveled.default)] at taken
      cases taken
      rfl
  | privilegedIdentity =>
      rw [assign?, text, read (Nat.lt_succ_iff.mpr leveled.privileged)] at taken
      cases taken
      rfl
  | logLevel =>
      rw [assign?, text, named] at taken
      cases taken
      rfl

end Config
end HookMachine
