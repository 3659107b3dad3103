import HookMachine.Machine
import Mathlib.Data.List.Forall2

/-!
What corresponds to what in two runs. A tie relates the objects of one run to those of the
other, one to one; values are alike if they are the same but for objects that are tied. No
comparison that a program can make tells like values apart.
-/

namespace HookMachine

/-- Two values are the same but for the objects that they refer to, which are related. -/
inductive Value.Paired (related : ObjectRef → ObjectRef → Prop) : Value → Value → Prop
  | nil : Paired related .nil .nil
  | boolean (b : Bool) : Paired related (.boolean b) (.boolean b)
  | number (x : Float) : Paired related (.number x) (.number x)
  | string (s : String) : Paired related (.string s) (.string s)
  | table {a b : TableRef} (tied : related (.table a) (.table b))
    : Paired related (.table a) (.table b)
  | closure {a b : ClosureRef} (tied : related (.closure a) (.closure b))
    : Paired related (.closure a) (.closure b)
  | native {a b : NativeRef} (tied : related (.native a) (.native b))
    : Paired related (.native a) (.native b)

/-- Two attempts come to results that are related, or to the same error. -/
inductive Matched {ε α β : Type} (related : α → β → Prop) : Except ε α → Except ε β → Prop
  | ok {a : α} {b : β} (holds : related a b) : Matched related (.ok a) (.ok b)
  | error (error : ε) : Matched related (.error error) (.error error)

/-- What corresponds to what in two runs. -/
structure Tie where
  /-- Which objects stand for each other. -/
  link : ObjectRef → ObjectRef → Prop
  /-- Which references stand for each other where they are only compared: those to objects that
  stand for each other, and others of objects that are gone.
  -/
  recalls : ObjectRef → ObjectRef → Prop
  /-- The cells that hold like values. -/
  cell : CellRef → Prop
  /-- The prototypes that are alike, with all that they nest. -/
  prototype : PrototypeRef → Prop
  /-- How much deeper calls lie in the second run. -/
  shift : Nat
  linked {a b : ObjectRef} : link a b → recalls a b
  apart {a b c d : ObjectRef} : recalls a b → link c d → (a = c ↔ b = d)

/-- Everything stands for itself and for nothing else. -/
structure Tie.Whole (t : Tie) : Prop where
  link {a b : ObjectRef} : t.link a b ↔ a = b
  recalls {a b : ObjectRef} : t.recalls a b ↔ a = b
  cell (c : CellRef) : t.cell c
  prototype (p : PrototypeRef) : t.prototype p

namespace Tie

variable (t : Tie)

/-- Values that are the same but for tied objects. -/
abbrev Values : Value → Value → Prop :=
  Value.Paired t.link

/-- Values that compare alike with all values of the runs. -/
abbrev Recalled : Value → Value → Prop :=
  Value.Paired t.recalls

abbrev TableRefs (a b : TableRef) : Prop :=
  t.link (.table a) (.table b)

abbrev ClosureRefs (a b : ClosureRef) : Prop :=
  t.link (.closure a) (.closure b)

abbrev NativeRefs (a b : NativeRef) : Prop :=
  t.link (.native a) (.native b)

/-- Lists of values that are alike one by one. -/
abbrev Lists : List Value → List Value → Prop :=
  List.Forall₂ t.Values

end Tie

-----------------------------------------------------------------------------------------
-- What paired values have in common
-----------------------------------------------------------------------------------------

namespace Value

variable {related other : ObjectRef → ObjectRef → Prop} {v w v' w' : Value}

namespace Paired

theorem kind (paired : Paired related v w) : v.kind = w.kind := by
  cases paired <;> rfl

theorem isNil (paired : Paired related v w) : v.isNil = w.isNil := by
  cases paired <;> rfl

theorem isTruthy (paired : Paired related v w) : v.isTruthy = w.isTruthy := by
  cases paired <;> rfl

theorem isFunction (paired : Paired related v w) : v.isFunction = w.isFunction := by
  cases paired <;> rfl

theorem toNumber? (paired : Paired related v w) : v.toNumber? = w.toNumber? := by
  cases paired <;> rfl

theorem index? (paired : Paired related v w) : Table.index? v = Table.index? w := by
  cases paired <;> rfl

theorem mono (implies : ∀ {a b}, related a b → other a b) (paired : Paired related v w)
    : Paired other v w := by
  cases paired with
  | nil => exact .nil
  | boolean b => exact .boolean b
  | number x => exact .number x
  | string s => exact .string s
  | table tied => exact .table (implies tied)
  | closure tied => exact .closure (implies tied)
  | native tied => exact .native (implies tied)

/-- Comparing values gives what comparing the values paired with them gives, if objects can be
told apart in the same way.
-/
theorem equal (apart : ∀ {a b c d}, related a b → other c d → (a = c ↔ b = d))
    (first : Paired related v w) (second : Paired other v' w')
    : (v == v') = (w == w') := by
  cases first <;> cases second <;> try rfl
  all_goals
    rename_i tied _ _ also
    have same := apart tied also
    exact decide_eq_decide.mpr (by simpa using same)

theorem refl (same : ∀ a, related a a) (v : Value) : Paired related v v := by
  cases v with
  | nil => exact .nil
  | boolean b => exact .boolean b
  | number x => exact .number x
  | string s => exact .string s
  | table ref => exact .table (same _)
  | closure ref => exact .closure (same _)
  | native ref => exact .native (same _)

theorem eq (same : ∀ {a b}, related a b → a = b) (paired : Paired related v w) : v = w := by
  cases paired with
  | nil | boolean | number | string => rfl
  | table tied => cases same tied; rfl
  | closure tied => cases same tied; rfl
  | native tied => cases same tied; rfl

theorem ofNat (n : Nat) : Paired related (.ofNat n) (.ofNat n) :=
  .number _

theorem orNil {o p : Option Value} (paired : Option.Rel (Paired related) o p)
    : Paired related (.orNil o) (.orNil p) := by
  cases paired with
  | some held => exact held
  | none => exact .nil

end Paired
end Value

namespace Tie

variable {t : Tie} {v w v' w' : Value} {a b c d : ObjectRef}

/-- Objects are tied one to one. -/
theorem single (first : t.link a b) (second : t.link c d) : a = c ↔ b = d :=
  t.apart (t.linked first) second

theorem Values.recalled (alike : t.Values v w) : t.Recalled v w :=
  alike.mono t.linked

theorem Values.beq (first : t.Values v w) (second : t.Values v' w') : (v == v') = (w == w') :=
  first.equal t.single second

theorem Recalled.beq (first : t.Recalled v w) (second : t.Values v' w')
    : (v == v') = (w == w') :=
  first.equal t.apart second

/-- A list of like values gives like values at every position. -/
theorem Lists.getD {xs ys : List Value} (alike : t.Lists xs ys) (i : Nat)
    : t.Values (xs.getD i .nil) (ys.getD i .nil) := by
  induction alike generalizing i with
  | nil => exact .nil
  | cons head _ ih =>
      cases i with
      | zero => exact head
      | succ i => exact ih i

theorem Lists.headD {xs ys : List Value} (alike : t.Lists xs ys)
    : t.Values (xs.headD .nil) (ys.headD .nil) := by
  cases alike with
  | nil => exact .nil
  | cons head _ => exact head

-----------------------------------------------------------------------------------------
-- Ties of everything to itself
-----------------------------------------------------------------------------------------

namespace Whole

variable (whole : t.Whole)

include whole

theorem object (a : ObjectRef) : t.link a a :=
  whole.link.mpr rfl

theorem values : t.Values v w ↔ v = w :=
  ⟨Value.Paired.eq whole.link.mp, fun same => same ▸ .refl (fun _ => whole.link.mpr rfl) v⟩

theorem recalled : t.Recalled v w ↔ v = w :=
  ⟨Value.Paired.eq whole.recalls.mp, fun same => same ▸ .refl (fun _ => whole.recalls.mpr rfl) v⟩

theorem value (v : Value) : t.Values v v :=
  whole.values.mpr rfl

theorem values_eq : t.Values = Eq :=
  funext fun _ => funext fun _ => propext whole.values

theorem recalled_eq : t.Recalled = Eq :=
  funext fun _ => funext fun _ => propext whole.recalled

theorem lists_eq : t.Lists = Eq := by
  unfold Lists
  rw [whole.values_eq, List.forall₂_eq_eq_eq]

theorem lists {xs ys : List Value} : t.Lists xs ys ↔ xs = ys := by
  rw [whole.lists_eq]

end Whole
end Tie
end HookMachine
