/-
# `InstantTensor.Lib.Rounding` — rounding a size to a unit

The three integer templates every size computation is written with, over the
natural numbers, and the handful of facts the layout proofs use: how far a
rounding moves its argument, that it is monotone, and that whole units pass
through it unchanged.  Nothing here knows what is being rounded.
-/
import Mathlib.Algebra.Order.Ring.Nat
import Mathlib.Tactic.Ring

namespace InstantTensor

/-- `⌈x / y⌉`, as the templates compute it. -/
def divCeil (x y : ℕ) : ℕ := (x + y - 1) / y

/-- The least multiple of `y` at or above `x`. -/
def roundUp (x y : ℕ) : ℕ := divCeil x y * y

/-- The greatest multiple of `y` at or below `x`. -/
def roundDown (x y : ℕ) : ℕ := x / y * y

section
variable {x x' y m : ℕ}

/-! ## Rounding down -/

theorem roundDown_add_mod (x y : ℕ) : roundDown x y + x % y = x := by
  rw [roundDown, Nat.mul_comm]
  exact Nat.div_add_mod x y

theorem roundDown_le (x y : ℕ) : roundDown x y ≤ x :=
  Nat.div_mul_le_self x y

theorem dvd_roundDown (x y : ℕ) : y ∣ roundDown x y :=
  Nat.dvd_mul_left y _

theorem roundDown_of_dvd (h : y ∣ x) : roundDown x y = x :=
  Nat.div_mul_cancel h

theorem roundDown_eq_sub (x y : ℕ) : roundDown x y = x - x % y := by
  have := roundDown_add_mod x y
  omega

/-! ## Rounding up -/

theorem divCeil_zero (hy : 0 < y) : divCeil 0 y = 0 :=
  Nat.div_eq_of_lt (by omega)

/-- For a positive argument the ceiling is one more than the floor of the predecessor. -/
theorem divCeil_of_pos (hy : 0 < y) (hx : 0 < x) : divCeil x y = (x - 1) / y + 1 := by
  rw [divCeil, show x + y - 1 = (x - 1) + y by omega, Nat.add_div_right _ hy]

theorem lt_divCeil_iff (hy : 0 < y) : m < divCeil x y ↔ m * y < x := by
  rw [divCeil, Nat.lt_iff_add_one_le, Nat.le_div_iff_mul_le hy, Nat.add_mul]
  omega

theorem roundUp_zero (hy : 0 < y) : roundUp 0 y = 0 := by
  rw [roundUp, divCeil_zero hy, Nat.zero_mul]

theorem dvd_roundUp (x y : ℕ) : y ∣ roundUp x y :=
  Nat.dvd_mul_left y _

theorem le_roundUp (hy : 0 < y) : x ≤ roundUp x y := by
  by_contra h
  have h' : roundUp x y < x := by omega
  exact absurd ((lt_divCeil_iff hy).mpr h') (Nat.lt_irrefl _)

theorem roundUp_lt (hy : 0 < y) : roundUp x y < x + y := by
  have := Nat.div_mul_le_self (x + y - 1) y
  unfold roundUp divCeil
  omega

theorem roundUp_mono (h : x ≤ x') (y : ℕ) : roundUp x y ≤ roundUp x' y :=
  Nat.mul_le_mul_right y (Nat.div_le_div_right (by omega))

theorem roundUp_of_dvd (hy : 0 < y) (h : y ∣ x) : roundUp x y = x := by
  obtain ⟨k, rfl⟩ := h
  rw [roundUp, divCeil, show y * k + y - 1 = (y - 1) + y * k by omega,
    Nat.add_mul_div_left _ _ hy, Nat.div_eq_of_lt (by omega), Nat.zero_add, Nat.mul_comm]

/-- A multiple that is large enough is no smaller than the rounding. -/
theorem roundUp_le_of_dvd (hy : 0 < y) (hle : x ≤ m) (h : y ∣ m) : roundUp x y ≤ m :=
  calc roundUp x y ≤ roundUp m y := roundUp_mono hle y
    _ = m := roundUp_of_dvd hy h

theorem le_roundUp_of_pos (hy : 0 < y) (hx : 0 < x) : y ≤ roundUp x y :=
  Nat.le_of_dvd (Nat.lt_of_lt_of_le hx (le_roundUp hy)) (dvd_roundUp x y)

/-- What fits in one unit rounds up to that unit. -/
theorem roundUp_eq_of_le (hy : 0 < y) (hx : 0 < x) (h : x ≤ y) : roundUp x y = y := by
  refine Nat.le_antisymm ?_ (le_roundUp_of_pos hy hx)
  calc roundUp x y ≤ roundUp y y := roundUp_mono h y
    _ = y := roundUp_of_dvd hy (Nat.dvd_refl y)

/-- Whole units in front pass through the rounding. -/
theorem roundUp_add_left (hy : 0 < y) (h : y ∣ m) : roundUp (m + x) y = m + roundUp x y := by
  obtain ⟨k, rfl⟩ := h
  rw [roundUp, divCeil, show y * k + x + y - 1 = (x + y - 1) + y * k by omega,
    Nat.add_mul_div_left _ _ hy, Nat.add_mul, roundUp, divCeil, Nat.mul_comm k y, Nat.add_comm]

end

end InstantTensor
