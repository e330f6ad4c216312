import Mathlib.Data.Nat.Basic
import Mathlib.Tactic.Linarith

/-! Matrices stored row after row: row `i` and column `j` of a matrix with `N` columns lie at
`i * N + j`. The places of two cells differ, and those of `M` rows are the first
`M * N` ones. -/

namespace SystemsLab.RowMajor

variable {M N i j i' j' a : Nat}

theorem cell_eq (hj : j < N) (hj' : j' < N) (same : i * N + j = i' * N + j') : i = i' ∧ j = j' := by
  have row : ∀ r c, c < N → (r * N + c) / N = r := fun r c hc =>
    Nat.div_eq_of_lt_le (Nat.le_add_right ..) (by rw [Nat.succ_mul]; omega)
  have rows : i = i' := by rw [← row i j hj, same, row i' j' hj']
  subst rows
  exact ⟨rfl, Nat.add_left_cancel same⟩

theorem cell_lt (hi : i < M) (hj : j < N) : i * N + j < M * N :=
  calc i * N + j < (i + 1) * N := by rw [Nat.succ_mul]; omega
    _ ≤ M * N := Nat.mul_le_mul_right N hi

theorem exists_cell (inside : a < M * N) : ∃ i j, i < M ∧ j < N ∧ a = i * N + j := by
  have pos : 0 < N := Nat.pos_of_mul_pos_left (Nat.zero_lt_of_lt inside)
  exact ⟨a / N, a % N, (Nat.div_lt_iff_lt_mul pos).mpr inside, Nat.mod_lt a pos,
    (Nat.div_add_mod' a N).symm⟩

end SystemsLab.RowMajor
