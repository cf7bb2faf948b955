/-
# `InstantTensor.Lib.Memory` — ranges of addresses, and writes that overlap

An unbounded memory is a function from addresses to cells.  A write puts data at an
address and may clobber some cells behind the data with anything at all; a sequence of
writes leaves at an address what the last write that covers it put there
(`writeAll_of_last`), provided nothing after that write reaches the address.
`Meets` says when two half-open ranges of addresses have a cell in common.
-/
import Mathlib.Data.Nat.Basic
import Mathlib.Tactic.Common

namespace InstantTensor

/-! ## Ranges -/

/-- The ranges `[lo, hi)` and `[lo', hi')` share an address. -/
def Meets (lo hi lo' hi' : ℕ) : Prop := max lo lo' < min hi hi'

instance (lo hi lo' hi' : ℕ) : Decidable (Meets lo hi lo' hi') :=
  inferInstanceAs (Decidable (_ < _))

section
variable {lo hi lo' hi' : ℕ}

theorem meets_iff : Meets lo hi lo' hi' ↔ ∃ a, lo ≤ a ∧ a < hi ∧ lo' ≤ a ∧ a < hi' := by
  unfold Meets
  constructor
  · intro h
    exact ⟨max lo lo', by omega⟩
  · rintro ⟨a, ha⟩
    omega

theorem Meets.mono {hi₁ hi₁' : ℕ} (h : Meets lo hi lo' hi') (hle : hi ≤ hi₁) (hle' : hi' ≤ hi₁') :
    Meets lo hi₁ lo' hi₁' := by
  unfold Meets at *
  omega

end

/-! ## Writes -/

/-- A write of `len` cells at `addr`; up to `addr + padded` it may leave anything. -/
structure Write (α : Type) where
  addr : ℕ
  len : ℕ
  padded : ℕ
  data : ℕ → α

section
variable {α : Type}

/-- The memory after a write that leaves `junk` in the padding. -/
def Write.apply (w : Write α) (junk : ℕ → α) (m : ℕ → α) : ℕ → α := fun a =>
  if w.addr ≤ a ∧ a < w.addr + w.len then w.data (a - w.addr)
  else if w.addr ≤ a ∧ a < w.addr + w.padded then junk (a - w.addr)
  else m a

/-- Writes in order; the `i`-th from `n` on leaves `junk i` in its padding. -/
def writeAll (junk : ℕ → ℕ → α) : ℕ → List (Write α) → (ℕ → α) → ℕ → α
  | _, [], m => m
  | n, w :: ws, m => writeAll junk (n + 1) ws (w.apply (junk n) m)

/-- The write leaves address `a` alone. -/
def Write.Misses (w : Write α) (a : ℕ) : Prop := a < w.addr ∨ w.addr + max w.len w.padded ≤ a

variable {junk : ℕ → ℕ → α}

theorem Write.apply_of_misses {w : Write α} {a : ℕ} (h : w.Misses a) (junk m : ℕ → α) :
    w.apply junk m a = m a := by
  unfold Write.Misses at h
  rw [Write.apply, if_neg (by omega), if_neg (by omega)]

theorem Write.apply_add {w : Write α} {b : ℕ} (hb : b < w.len) (junk m : ℕ → α) :
    w.apply junk m (w.addr + b) = w.data b := by
  rw [Write.apply, if_pos ⟨Nat.le_add_right _ _, Nat.add_lt_add_left hb _⟩, Nat.add_sub_cancel_left]

theorem writeAll_append (junk : ℕ → ℕ → α) (n : ℕ) (ws ws' : List (Write α)) (m : ℕ → α) :
    writeAll junk n (ws ++ ws') m = writeAll junk (n + ws.length) ws' (writeAll junk n ws m) := by
  induction ws generalizing n m with
  | nil => rfl
  | cons w ws ih =>
      rw [List.cons_append, writeAll, ih, writeAll, List.length_cons, Nat.add_right_comm,
        Nat.add_assoc]

theorem writeAll_of_misses {n : ℕ} {ws : List (Write α)} {m : ℕ → α} {a : ℕ}
    (h : ∀ w ∈ ws, w.Misses a) : writeAll junk n ws m a = m a := by
  induction ws generalizing n m with
  | nil => rfl
  | cons w ws ih =>
      have hrest : ∀ w' ∈ ws, w'.Misses a := fun w' hw' => h w' (List.mem_cons_of_mem w hw')
      rw [writeAll, ih hrest, Write.apply_of_misses (h w List.mem_cons_self)]

/-- An address holds what the last write over it put there. -/
theorem writeAll_of_last {n : ℕ} {ws ws' : List (Write α)} {w : Write α} {m : ℕ → α} {b : ℕ}
    (hb : b < w.len) (hlast : ∀ w' ∈ ws', w'.Misses (w.addr + b)) :
    writeAll junk n (ws ++ w :: ws') m (w.addr + b) = w.data b := by
  rw [writeAll_append, writeAll, writeAll_of_misses hlast, Write.apply, if_pos (by omega),
    Nat.add_sub_cancel_left]

/-- The same by index: write `i` is the last one up to `k` that covers the address. -/
theorem writeAll_take_of_last {n i k : ℕ} {ws : List (Write α)} {w : Write α} {m : ℕ → α} {b : ℕ}
    (hi : ws[i]? = some w) (hik : i ≤ k) (hb : b < w.len)
    (hlast : ∀ j w', ws[j]? = some w' → i < j → j ≤ k → w'.Misses (w.addr + b)) :
    writeAll junk n (ws.take (k + 1)) m (w.addr + b) = w.data b := by
  obtain ⟨hlen, rfl⟩ := List.getElem?_eq_some_iff.mp hi
  have hsplit : ws.take (k + 1)
      = ws.take i ++ ws[i] :: (ws.drop (i + 1)).take (k - i) := by
    have hk : k + 1 = i + (k - i + 1) := by omega
    rw [hk, List.take_add, List.drop_eq_getElem_cons hlen, List.take_succ_cons]
  rw [hsplit]
  refine writeAll_of_last hb fun w' hw' => ?_
  obtain ⟨j, hj⟩ := List.mem_iff_getElem?.mp hw'
  rw [List.getElem?_take] at hj
  split at hj
  · next hjk =>
    rw [List.getElem?_drop] at hj
    exact hlast (i + 1 + j) w' hj (by omega) (by omega)
  · simp at hj

end

end InstantTensor
