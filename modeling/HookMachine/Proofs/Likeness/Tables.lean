import HookMachine.Proofs.Likeness.Tie

/-!
Tables whose fields are alike one by one. Like keys find like values in them, and writing like
values under like keys leaves them alike.
-/

namespace List.Forall₂

variable {α β : Type} {related : α → β → Prop} {xs : List α} {ys : List β}

theorem getElem? (alike : xs.Forall₂ related ys) (i : Nat) : Option.Rel related xs[i]? ys[i]? := by
  induction alike generalizing i with
  | nil => exact .none
  | cons head _ ih =>
      cases i with
      | zero => exact .some head
      | succ i => exact ih i

theorem set (alike : xs.Forall₂ related ys) {a : α} {b : β} (holds : related a b) (i : Nat)
    : (xs.set i a).Forall₂ related (ys.set i b) := by
  induction alike generalizing i with
  | nil => exact .nil
  | cons head tail ih =>
      cases i with
      | zero => exact .cons holds tail
      | succ i => exact .cons head (ih i)

theorem modify (alike : xs.Forall₂ related ys) {change : α → α} {other : β → β}
    (changed : ∀ a b, related a b → related (change a) (other b)) (i : Nat)
    : (xs.modify i change).Forall₂ related (ys.modify i other) := by
  induction alike generalizing i with
  | nil => simp
  | cons head tail ih =>
      cases i with
      | zero => exact .cons (changed _ _ head) tail
      | succ i => exact .cons head (ih i)

theorem append {more : List α} {others : List β} (alike : xs.Forall₂ related ys)
    (rest : more.Forall₂ related others)
    : (xs ++ more).Forall₂ related (ys ++ others) :=
  List.rel_append alike rest

/-- Tests that tell no related items apart keep the same items. -/
theorem filter (alike : xs.Forall₂ related ys) {test : α → Bool} {other : β → Bool}
    (same : ∀ a b, related a b → test a = other b)
    : (xs.filter test).Forall₂ related (ys.filter other) :=
  List.rel_filter (fun a b holds => by simp only [same a b holds]) alike

/-- Tests that tell no related items apart find the same item. -/
theorem find? (alike : xs.Forall₂ related ys) {test : α → Bool} {other : β → Bool}
    (same : ∀ a b, related a b → test a = other b)
    : Option.Rel related (xs.find? test) (ys.find? other) := by
  induction alike with
  | nil => exact .none
  | @cons a b _ _ head _ ih =>
      rw [List.find?_cons, List.find?_cons, same a b head]
      cases other b with
      | true => exact .some head
      | false => exact ih

/-- Tests that tell no related items apart are met by items of both lists or of none. -/
theorem any_eq (alike : xs.Forall₂ related ys) {test : α → Bool} {other : β → Bool}
    (same : ∀ a b, related a b → test a = other b)
    : xs.any test = ys.any other := by
  induction alike with
  | nil => rfl
  | cons head _ ih => rw [List.any_cons, List.any_cons, same _ _ head, ih]

theorem dropWhile (alike : xs.Forall₂ related ys) {test : α → Bool} {other : β → Bool}
    (same : ∀ a b, related a b → test a = other b)
    : (xs.dropWhile test).Forall₂ related (ys.dropWhile other) := by
  induction alike with
  | nil => exact .nil
  | @cons a b _ _ head tail ih =>
      rw [List.dropWhile_cons, List.dropWhile_cons, same a b head]
      cases other b with
      | true => exact ih
      | false => exact .cons head tail

end List.Forall₂

namespace Option.Rel

variable {α β γ δ : Type} {related : α → β → Prop} {other : γ → δ → Prop} {o : Option α}
  {p : Option β}

theorem isSome (alike : Option.Rel related o p) : o.isSome = p.isSome := by
  cases alike <;> rfl

theorem map {f : α → γ} {g : β → δ} (implies : ∀ {a b}, related a b → other (f a) (g b))
    (alike : Option.Rel related o p)
    : Option.Rel other (o.map f) (p.map g) := by
  cases alike with
  | some held => exact .some (implies held)
  | none => exact .none

theorem imp {also : α → β → Prop} (implies : ∀ {a b}, related a b → also a b)
    (alike : Option.Rel related o p)
    : Option.Rel also o p := by
  cases alike with
  | some held => exact .some (implies held)
  | none => exact .none

end Option.Rel

namespace HookMachine
namespace Tie

variable (t : Tie)

/-- Fields with like keys and like values. -/
def Fields (f g : Value × Value) : Prop :=
  t.Values f.1 g.1 ∧ t.Values f.2 g.2

/-- Tables whose contents are alike one by one. -/
structure Tables (x y : Table) : Prop where
  array : x.array.toList.Forall₂ t.Values y.array.toList
  hash : x.hash.Forall₂ t.Fields y.hash
  metatable : Option.Rel t.TableRefs x.metatable y.metatable
  readOnly : x.readOnly = y.readOnly
  marked : x.marked = y.marked

variable {t} {x y : Table} {k l v w : Value} {xs ys : List (Value × Value)}

-----------------------------------------------------------------------------------------
-- The hash part
-----------------------------------------------------------------------------------------

namespace Fields

theorem matches_key {f g : Value × Value} (alike : t.Fields f g) (key : t.Values k l)
    : (f.1 == k) = (g.1 == l) :=
  alike.1.beq key

theorem lookup (alike : xs.Forall₂ t.Fields ys) (key : t.Values k l)
    : Option.Rel t.Values (Table.lookup k xs) (Table.lookup l ys) :=
  (alike.find? fun _ _ field => field.matches_key key).map And.right

theorem lookupIndex (alike : xs.Forall₂ t.Fields ys) (n : Nat)
    : Option.Rel t.Values (Table.lookupIndex n xs) (Table.lookupIndex n ys) :=
  (alike.find? fun _ _ field => by rw [field.1.index?]).map And.right

theorem store (alike : xs.Forall₂ t.Fields ys) (key : t.Values k l) (value : t.Values v w)
    : (Table.store k v xs).Forall₂ t.Fields (Table.store l w ys) := by
  induction alike with
  | nil => exact .cons ⟨key, value⟩ .nil
  | cons head tail ih =>
      unfold Table.store
      rw [head.matches_key key]
      split
      · exact .cons ⟨head.1, value⟩ tail
      · exact .cons head ih

theorem erase (alike : xs.Forall₂ t.Fields ys) (key : t.Values k l)
    : (Table.erase k xs).Forall₂ t.Fields (Table.erase l ys) :=
  alike.filter fun _ _ field => by rw [field.matches_key key]

end Fields

-----------------------------------------------------------------------------------------
-- Tables
-----------------------------------------------------------------------------------------

namespace Tables

theorem empty : t.Tables {} {} :=
  ⟨.nil, .nil, .none, rfl, rfl⟩

theorem size (alike : t.Tables x y) : x.array.size = y.array.size := by
  simpa using alike.array.length_eq

theorem get? (alike : t.Tables x y) (key : t.Values k l)
    : Option.Rel t.Values (x.get? k) (y.get? l) := by
  have hashed := Fields.lookup alike.hash key
  unfold Table.get?
  rw [key.index?, alike.size]
  cases Table.index? l with
  | none => exact hashed
  | some n =>
      dsimp only
      split
      · have found := alike.array.getElem? (n - 1)
        rw [Array.getElem?_toList, Array.getElem?_toList] at found
        generalize x.array[n - 1]? = o at *
        generalize y.array[n - 1]? = p at *
        cases found with
        | none => exact .none
        | some held =>
            rw [Option.filter_some, Option.filter_some, held.isNil]
            split
            · exact .some held
            · exact .none
      · exact hashed

theorem field? (alike : t.Tables x y) (name : String)
    : Option.Rel t.Values (x.field? name) (y.field? name) :=
  Fields.lookup alike.hash (.string name)

theorem push (alike : t.Tables x y) (value : t.Values v w)
    : t.Tables { x with array := x.array.push v } { y with array := y.array.push w } := by
  refine { alike with array := ?_ }
  rw [Array.toList_push, Array.toList_push]
  exact alike.array.append (.cons value .nil)

theorem absorb (fuel : Nat) (alike : t.Tables x y)
    : t.Tables (Table.absorb fuel x) (Table.absorb fuel y) := by
  induction fuel generalizing x y with
  | zero => exact alike
  | succ fuel ih =>
      unfold Table.absorb
      rw [alike.size]
      have found := Fields.lookupIndex alike.hash (y.array.size + 1)
      dsimp only
      generalize Table.lookupIndex (y.array.size + 1) x.hash = o at *
      generalize Table.lookupIndex (y.array.size + 1) y.hash = p at *
      cases found with
      | none => exact alike
      | some held =>
          refine ih { alike.push held with hash := ?_ }
          exact alike.hash.filter fun _ _ field => by rw [field.1.index?]

theorem setHash (alike : t.Tables x y) (key : t.Values k l) (value : t.Values v w)
    : t.Tables (x.setHash k v) (y.setHash l w) := by
  unfold Table.setHash
  rw [value.isNil]
  split
  · exact { alike with hash := Fields.erase alike.hash key }
  · exact { alike with hash := Fields.store alike.hash key value }

theorem set (alike : t.Tables x y) (key : t.Values k l) (value : t.Values v w)
    : t.Tables (x.set k v) (y.set l w) := by
  have hashed := alike.setHash key value
  unfold Table.set
  rw [key.index?, alike.size, value.isNil, alike.hash.length_eq]
  cases Table.index? l with
  | none => exact hashed
  | some n =>
      dsimp only
      split
      · exact (alike.push value).absorb _
      · split
        · refine { alike with array := ?_ }
          obtain ⟨⟨elements⟩, _⟩ := x
          obtain ⟨⟨others⟩, _⟩ := y
          rw [List.setIfInBounds_toArray, List.setIfInBounds_toArray, List.popWhile_toArray,
            List.popWhile_toArray]
          refine List.rel_reverse (List.Forall₂.dropWhile (List.rel_reverse ?_) ?_)
          · exact alike.array.set value _
          · exact fun _ _ held => held.isNil
        · exact hashed

end Tables

/-- Tables that are alike by a tie of everything to itself are the same. -/
theorem Whole.tables (whole : t.Whole) : t.Tables x y ↔ x = y := by
  have fields : t.Fields = Eq := by
    funext f g
    rw [Fields, whole.values, whole.values]
    exact propext Prod.ext_iff.symm
  refine ⟨fun alike => ?_, fun same => same ▸ ?_⟩
  · obtain ⟨array, hash, metatable, readOnly, marked⟩ := alike
    rw [whole.values_eq, List.forall₂_eq_eq_eq] at array
    rw [fields, List.forall₂_eq_eq_eq] at hash
    obtain ⟨_, _, before, _, _⟩ := x
    obtain ⟨_, _, after, _, _⟩ := y
    simp only at array hash metatable readOnly marked
    have same : before = after := by
      cases metatable with
      | none => rfl
      | some tied => simpa using whole.link.mp tied
    rw [Array.toList_inj.mp array, hash, same, readOnly, marked]
  · refine ⟨?_, ?_, ?_, rfl, rfl⟩
    · rw [whole.values_eq, List.forall₂_eq_eq_eq]
    · rw [fields, List.forall₂_eq_eq_eq]
    · cases x.metatable with
      | none => exact .none
      | some ref => exact .some (whole.link.mpr rfl)

end Tie
end HookMachine
