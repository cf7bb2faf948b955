/-
# `InstantTensor.Lib.Words` — machine words as numbers

Differences on `size_t` wrap around, and casts to a signed type read the upper half as
negative.  On values that stay in the lower half the clamped difference is the truncated one
and a cast changes nothing.
-/
import Mathlib.Algebra.Group.Int.Defs
import Mathlib.Algebra.Group.Nat.Defs
import Mathlib.Order.Lattice
import Mathlib.Order.Basic

namespace InstantTensor

/-! ## Differences of `size_t` -/

/-- `a - b` on `size_t`. -/
def sizeDiff (a b : ℕ) : ℕ := (a + (2 ^ 64 - b % 2 ^ 64)) % 2 ^ 64

/-- `(ssize_t)x`. -/
def toSigned (x : ℕ) : ℤ := if x < 2 ^ 63 then x else x - 2 ^ 64

/-- `(size_t)std::max((ssize_t)x, (ssize_t)0)`. -/
def clampSize (x : ℕ) : ℕ := (max (toSigned x) 0).toNat

theorem clampSize_sizeDiff {a b : ℕ} (ha : a < 2 ^ 63) (hb : b ≤ 2 ^ 63) :
    clampSize (sizeDiff a b) = a - b := by
  unfold clampSize toSigned sizeDiff
  split <;> omega

theorem sizeDiff_sizeDiff (a b c : ℕ) : sizeDiff (sizeDiff a b) c = sizeDiff a (b + c) := by
  unfold sizeDiff
  omega

/-- `(int)x`. -/
def toInt (x : ℕ) : ℤ := if x % 2 ^ 32 < 2 ^ 31 then x % 2 ^ 32 else x % 2 ^ 32 - 2 ^ 32

theorem toInt_of_lt {x : ℕ} (h : x < 2 ^ 31) : toInt x = x := by
  unfold toInt
  split <;> omega

end InstantTensor
