import HookMachine.Execution.Invoke

/-!
Operations compared by what they settle. Where one operation runs out of fuel another may go
on, but where it settles the other has the same outcome: the same result or error, in the
same machine. Everything that operations are built with keeps this order.
-/

namespace HookMachine.Run

variable {ε ε' α β : Type}

/-- An outcome other than that the fuel ran out. -/
def Settled : EStateM.Result (Halt ε) Machine α → Prop
  | .error .outOfFuel _ => False
  | _ => True

instance (outcome : EStateM.Result (Halt ε) Machine α) : Decidable (Settled outcome) :=
  match outcome with
  | .ok .. => .isTrue trivial
  | .error (.failed _) _ => .isTrue trivial
  | .error .outOfFuel _ => .isFalse id

/-- What goes on in the same way settles as well. -/
theorem Settled.of_bind {x : Run ε α} {f g : α → Run ε β} {m : Machine}
    (settled : Settled ((x >>= f) m)) (same : ∀ a, f a = g a)
    : Settled ((x >>= g) m) :=
  (funext same : f = g) ▸ settled

/-- Where `x` settles, `y` has the same outcome. -/
structure Below (x y : Run ε α) : Prop where
  eq_of_settled : ∀ m, Settled (x m) → y m = x m

namespace Below

theorem refl (x : Run ε α) : Below x x :=
  ⟨fun _ _ => rfl⟩

theorem trans {x y z : Run ε α} (first : Below x y) (second : Below y z) : Below x z := by
  refine ⟨fun m settled => ?_⟩
  have same := first.eq_of_settled m settled
  rw [second.eq_of_settled m (same ▸ settled), same]

/-- An operation that is out of fuel at once settles nothing. -/
theorem outOfFuel (x : Run ε α) : Below (throw .outOfFuel) x :=
  ⟨fun _ settled => settled.elim⟩

theorem bind {x y : Run ε α} {f g : α → Run ε β} (first : Below x y)
    (rest : ∀ a, Below (f a) (g a))
    : Below (x >>= f) (y >>= g) := by
  refine ⟨fun m settled => ?_⟩
  change Settled (EStateM.bind x f m) at settled
  change EStateM.bind y g m = EStateM.bind x f m
  unfold EStateM.bind at *
  rcases ran : x m with ⟨a, after⟩ | ⟨_ | _, after⟩ <;> rw [ran] at settled
  · rw [first.eq_of_settled m (by simp [ran, Settled]), ran]
    exact (rest a).eq_of_settled after settled
  · rw [first.eq_of_settled m (by simp [ran, Settled]), ran]
  · exact settled.elim

theorem mapError {x y : Run ε α} (f : ε → ε') (below : Below x y)
    : Below (Run.mapError f x) (Run.mapError f y) := by
  refine ⟨fun m settled => ?_⟩
  unfold Run.mapError at *
  rcases ran : x m with ⟨a, after⟩ | ⟨_ | _, after⟩ <;> rw [ran] at settled
  · rw [below.eq_of_settled m (by simp [ran, Settled]), ran]
  · rw [below.eq_of_settled m (by simp [ran, Settled]), ran]
  · exact settled.elim

theorem attempt {x y : Run ε α} (below : Below x y)
    : Below (Run.attempt x) (Run.attempt y) := by
  refine ⟨fun m settled => ?_⟩
  unfold Run.attempt at *
  rcases ran : x m with ⟨a, after⟩ | ⟨_ | _, after⟩ <;> rw [ran] at settled
  · rw [below.eq_of_settled m (by simp [ran, Settled]), ran]
  · rw [below.eq_of_settled m (by simp [ran, Settled]), ran]
  · exact settled.elim

theorem enter {x y : Vm α} (below : Below x y) : Below (Vm.enter x) (Vm.enter y) := by
  refine ⟨fun m settled => ?_⟩
  unfold Vm.enter at *
  rcases ran : x m.enter with ⟨a, after⟩ | ⟨_ | _, after⟩ <;> rw [ran] at settled
  · rw [below.eq_of_settled m.enter (by simp [ran, Settled]), ran]
  · rw [below.eq_of_settled m.enter (by simp [ran, Settled]), ran]
  · exact settled.elim

end Below

end HookMachine.Run
