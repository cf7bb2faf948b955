/-
# `InstantTensor.Lib.Spans` — consecutive numbers

`span lo hi` lists the integers above `lo` up to `hi`.  A first-in first-out queue whose entries
are numbered in the order they come is a span at all times: what leaves moves the lower end,
what comes moves the upper one.
-/
import Mathlib.Data.Int.Init
import Mathlib.Order.Basic
import Mathlib.Data.List.Basic
import Mathlib.Tactic.Common

namespace InstantTensor

def span (lo hi : ℤ) : List ℤ := (List.range (hi - lo).toNat).map fun i : ℕ => lo + 1 + i

section
variable {lo hi c : ℤ}

theorem mem_span : c ∈ span lo hi ↔ lo < c ∧ c ≤ hi := by
  unfold span
  rw [List.mem_map]
  constructor
  · rintro ⟨i, hi, rfl⟩
    have := List.mem_range.mp hi
    omega
  · rintro ⟨hlo, hhi⟩
    exact ⟨(c - lo - 1).toNat, List.mem_range.mpr (by omega), by omega⟩

theorem span_of_le (h : hi ≤ lo) : span lo hi = [] := by
  rw [span, Int.toNat_of_nonpos (by omega)]
  rfl

@[simp] theorem span_self (lo : ℤ) : span lo lo = [] := span_of_le (Int.le_refl _)

theorem span_cons (h : lo < hi) : span lo hi = (lo + 1) :: span (lo + 1) hi := by
  unfold span
  rw [show (hi - lo).toNat = (hi - (lo + 1)).toNat + 1 by omega, List.range_succ_eq_map,
    List.map_cons, List.map_map]
  refine congrArg₂ List.cons (by simp) (List.map_congr_left fun i _ => ?_)
  simp only [Function.comp]
  omega

theorem span_concat (h : lo ≤ hi) : span lo (hi + 1) = span lo hi ++ [hi + 1] := by
  unfold span
  rw [show (hi + 1 - lo).toNat = (hi - lo).toNat + 1 by omega, List.range_succ, List.map_append,
    List.map_singleton]
  congr 2
  omega

/-- What is first in a span, and what is behind it. -/
theorem span_eq_cons {rest : List ℤ} (h : span lo hi = c :: rest) :
    lo < hi ∧ c = lo + 1 ∧ rest = span (lo + 1) hi := by
  have hlt : lo < hi := by
    by_contra hge
    rw [span_of_le (Int.not_lt.mp hge)] at h
    cases h
  rw [span_cons hlt, List.cons.injEq] at h
  exact ⟨hlt, h.1.symm, h.2.symm⟩

theorem span_append {mid : ℤ} (h : lo ≤ mid) (h' : mid ≤ hi) :
    span lo mid ++ span mid hi = span lo hi := by
  induction hi, h' using Int.leInduction with
  | base => rw [span_self, List.append_nil]
  | succ hi h' ih => rw [span_concat h', ← List.append_assoc, ih, span_concat (Int.le_trans h h')]

theorem getElem?_span {k : ℕ} (h : (span lo hi)[k]? = some c) : c = lo + 1 + k := by
  rw [span, List.getElem?_map, Option.map_eq_some_iff] at h
  obtain ⟨i, hi, rfl⟩ := h
  obtain ⟨-, rfl⟩ := List.getElem?_eq_some_iff.mp hi
  rw [List.getElem_range]

theorem length_span (h : lo ≤ hi) : ((span lo hi).length : ℤ) = hi - lo := by
  rw [span, List.length_map, List.length_range]
  omega

end

end InstantTensor
