/-!
Cutting a list at every occurrence of a separator.
-/

namespace HookMachine.Text

variable {α : Type} [DecidableEq α]

/-- Puts `x` in front of the first piece, or ends that piece if `x` is the separator. -/
def extend (separator x : α) : List (List α) → List (List α)
  | [] => [[x]]
  | piece :: rest => if x = separator then [] :: piece :: rest else (x :: piece) :: rest

/-- The pieces between the separators, of which there is at least one. -/
def pieces (separator : α) (xs : List α) : List (List α) :=
  xs.foldr (extend separator) [[]]

/-- Pieces are cut from the end of a text. -/
theorem pieces_cons (separator x : α) (xs : List α)
    : pieces separator (x :: xs) = extend separator x (pieces separator xs) :=
  rfl

/-- There is a first piece, whatever the text. -/
theorem exists_pieces_eq_cons (separator : α) (xs : List α)
    : ∃ piece rest, pieces separator xs = piece :: rest := by
  cases xs with
  | nil => exact ⟨[], [], rfl⟩
  | cons x xs =>
      rw [pieces_cons]
      cases pieces separator xs with
      | nil => exact ⟨[x], [], rfl⟩
      | cons piece rest =>
          simp only [extend]
          split <;> exact ⟨_, _, rfl⟩

/-- Text without a separator is one piece. -/
theorem pieces_of_notMem {separator : α} {xs : List α} (h : separator ∉ xs)
    : pieces separator xs = [xs] := by
  induction xs with
  | nil => rfl
  | cons x xs ih =>
      rw [List.mem_cons, not_or] at h
      rw [pieces_cons, ih h.2]
      simp only [extend, if_neg (Ne.symm h.1)]

/-- What stands before the first separator is the first piece. -/
theorem pieces_append_cons {separator : α} {xs : List α} (ys : List α) (h : separator ∉ xs)
    : pieces separator (xs ++ separator :: ys) = xs :: pieces separator ys := by
  induction xs with
  | nil =>
      obtain ⟨piece, rest, hys⟩ := exists_pieces_eq_cons separator ys
      rw [List.nil_append, pieces_cons, hys]
      simp only [extend, if_pos]
  | cons x xs ih =>
      rw [List.mem_cons, not_or] at h
      rw [List.cons_append, pieces_cons, ih h.2]
      simp only [extend, if_neg (Ne.symm h.1)]

end HookMachine.Text
