/-
# `InstantTensor.Lib.Pieces` — a range cut into pieces of one size

`total` cells are cut into pieces of `size` cells each: piece `i` starts at `size * i`, the last
piece with cells may be short and those behind it are empty.  Each cell is in exactly one
piece (`mem_piece_iff`) and so many pieces have together as many cells as there are
(`sum_piece`).
-/
import Mathlib.Algebra.BigOperators.Group.List.Basic
import Mathlib.Algebra.Order.Ring.Nat

namespace InstantTensor

/-- The cells of piece `i`. -/
def piece (total size i : ℕ) : ℕ := min (total - size * i) size

section
variable {total size i n c : ℕ}

theorem piece_le : piece total size i ≤ size := min_le_right _ _

/-- No piece is longer than one in front of it. -/
theorem piece_le_piece {j : ℕ} (hij : i ≤ j) : piece total size j ≤ piece total size i := by
  have hmono := Nat.mul_le_mul_left size hij
  unfold piece
  omega

theorem mem_piece_iff (total : ℕ) (hsize : 0 < size) :
    size * i ≤ c ∧ c < size * i + piece total size i ↔ c < total ∧ c / size = i := by
  rw [Nat.div_eq_iff hsize, Nat.mul_comm i size]
  unfold piece
  omega

/-- Together the first `n` pieces have all cells, up to what `n` pieces can hold. -/
theorem sum_piece (n : ℕ) : ((List.range n).map (piece total size)).sum = min total (size * n) := by
  induction n with
  | zero => simp
  | succ n ih =>
      rw [List.range_succ, List.map_append, List.sum_append, ih, List.map_singleton,
        List.sum_singleton, Nat.mul_succ, piece]
      omega

end

end InstantTensor
