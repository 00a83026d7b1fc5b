import Mathlib.Data.Nat.Notation
import Mathlib.Data.List.Basic

/-!
# Lists in pieces

A list cut into consecutive pieces of one size, the last possibly shorter. A size of zero
counts as one.
-/

namespace Pieces

variable {α : Type*} {size : ℕ} {l : List α}

/-- The pieces of a list : none if it is empty. -/
def pieces (size : ℕ) : List α → List (List α)
  | [] => []
  | a :: l => (a :: l.take (size - 1)) :: pieces size (l.drop (size - 1))
termination_by l => l.length
decreasing_by
  simp only [List.length_cons, List.length_drop]
  omega

@[simp]
theorem pieces_nil : pieces size ([] : List α) = [] := by
  rw [pieces]

theorem pieces_of_ne_nil (hsize : 0 < size) (hl : l ≠ []) :
    pieces size l = l.take size :: pieces size (l.drop size) := by
  obtain ⟨n, rfl⟩ := Nat.exists_eq_add_one.2 hsize
  cases l with
  | nil => exact absurd rfl hl
  | cons a l => rw [pieces, Nat.add_sub_cancel, List.take_succ_cons, List.drop_succ_cons]

/-- The pieces put together are the list. -/
theorem flatten_pieces (size : ℕ) (l : List α) : (pieces size l).flatten = l := by
  fun_induction pieces size l with
  | case1 => rfl
  | case2 a l ih =>
    rw [List.flatten_cons, ih, List.cons_append, List.take_append_drop]

end Pieces
