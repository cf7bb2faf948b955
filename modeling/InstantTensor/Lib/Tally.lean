/-
# `InstantTensor.Lib.Tally` — weights summed by key

A list of keys with weights is read as the weight it gives to each set of keys.  Merging equal
keys changes the list and keeps every weight.  In a list sorted by its keys the running
sum at an entry is the weight of the keys up to its own, so that a scan for the first entry where
this sum is enough finds the least such key (`firstEnough_isLeast`).
-/
import Mathlib.Algebra.BigOperators.Group.List.Basic
import Mathlib.Algebra.GroupWithZero.Nat
import Mathlib.Data.List.Nodup
import Mathlib.Data.List.Perm.Basic
import Mathlib.Order.Bounds.Basic

namespace InstantTensor

section
variable {α : Type} {p : α → Prop} [DecidablePred p] {d : List (α × ℕ)}

/-- The weight of the keys in `p`. -/
def weightOf (p : α → Prop) [DecidablePred p] (d : List (α × ℕ)) : ℕ :=
  ((d.filter fun e => p e.1).map Prod.snd).sum

@[simp] theorem weightOf_nil : weightOf p [] = 0 := rfl

theorem weightOf_cons (e : α × ℕ) (d : List (α × ℕ)) :
    weightOf p (e :: d) = (if p e.1 then e.2 else 0) + weightOf p d := by
  by_cases hp : p e.1
  · rw [if_pos hp, weightOf, List.filter_cons_of_pos (by simpa using hp)]
    rfl
  · rw [if_neg hp, Nat.zero_add, weightOf, List.filter_cons_of_neg (by simpa using hp)]
    rfl

theorem weightOf_perm {d' : List (α × ℕ)} (h : d.Perm d') : weightOf p d = weightOf p d' :=
  ((h.filter _).map Prod.snd).sum_nat

theorem weightOf_of_forall (h : ∀ e ∈ d, p e.1) : weightOf p d = (d.map Prod.snd).sum := by
  rw [weightOf, List.filter_eq_self.mpr fun e he => by simpa using h e he]

theorem weightOf_eq_zero (h : ∀ e ∈ d, ¬ p e.1) : weightOf p d = 0 := by
  rw [weightOf, List.filter_eq_nil_iff.mpr fun e he => by simpa using h e he]
  rfl

/-! ## Merging equal keys -/

variable [DecidableEq α]

/-- Add `weight` to the entry of `key`, behind all others if there is none yet. -/
def addWeight (key : α) (weight : ℕ) : List (α × ℕ) → List (α × ℕ)
  | [] => [(key, weight)]
  | (key', weight') :: d =>
      if key' = key then (key', weight' + weight) :: d
      else (key', weight') :: addWeight key weight d

theorem weightOf_addWeight (key : α) (weight : ℕ) (d : List (α × ℕ)) :
    weightOf p (addWeight key weight d) = weightOf p ((key, weight) :: d) := by
  induction d with
  | nil => rfl
  | cons e d ih =>
      obtain ⟨key', weight'⟩ := e
      rw [addWeight]
      split
      · next heq =>
        subst heq
        simp only [weightOf_cons]
        split <;> omega
      · rw [weightOf_cons, ih]
        simp only [weightOf_cons]
        omega

theorem mem_keys_addWeight {key x : α} {weight : ℕ} :
    x ∈ (addWeight key weight d).map Prod.fst ↔ x = key ∨ x ∈ d.map Prod.fst := by
  induction d with
  | nil => simp [addWeight]
  | cons e d ih =>
      obtain ⟨key', weight'⟩ := e
      rw [addWeight]
      split
      · next heq =>
        subst heq
        simp
      · rw [List.map_cons, List.mem_cons, ih, List.map_cons, List.mem_cons]
        exact or_left_comm

theorem nodup_keys_addWeight (key : α) (weight : ℕ) (h : (d.map Prod.fst).Nodup) :
    ((addWeight key weight d).map Prod.fst).Nodup := by
  induction d with
  | nil => exact List.nodup_singleton _
  | cons e d ih =>
      obtain ⟨key', weight'⟩ := e
      obtain ⟨hnew, hd⟩ := List.nodup_cons.mp h
      rw [addWeight]
      split
      · exact h
      · next hne =>
        refine List.nodup_cons.mpr ⟨?_, ih hd⟩
        rw [mem_keys_addWeight, not_or]
        exact ⟨hne, hnew⟩

end

/-! ## The first key that is enough -/

section
variable {α : Type} {enough : ℕ → Prop} [DecidablePred enough]

/-- The first key at which the weights so far are enough. -/
def firstEnough (enough : ℕ → Prop) [DecidablePred enough] : List (α × ℕ) → ℕ → Option α
  | [], _ => none
  | (key, weight) :: d, sum =>
      if enough (sum + weight) then some key else firstEnough enough d (sum + weight)

variable [LinearOrder α] {d : List (α × ℕ)}

theorem firstEnough_isLeast {sum : ℕ} (hsorted : (d.map Prod.fst).Pairwise (· < ·)) (hne : d ≠ [])
    (hall : enough (sum + (d.map Prod.snd).sum)) : ∃ key, firstEnough enough d sum = some key ∧
      IsLeast {x | x ∈ d.map Prod.fst ∧ enough (sum + weightOf (· ≤ x) d)} key := by
  induction d generalizing sum with
  | nil => exact absurd rfl hne
  | cons e d ih =>
      obtain ⟨key, weight⟩ := e
      obtain ⟨hfirst, hrest⟩ := List.pairwise_cons.mp hsorted
      have hhead : weightOf (· ≤ key) ((key, weight) :: d) = weight := by
        have hzero : weightOf (· ≤ key) d = 0 :=
          weightOf_eq_zero fun e he => not_le.mpr (hfirst e.1 (List.mem_map_of_mem he))
        rw [weightOf_cons, if_pos le_rfl, hzero, Nat.add_zero]
      have htail : ∀ {x}, x ∈ d.map Prod.fst →
          sum + weightOf (· ≤ x) ((key, weight) :: d) = sum + weight + weightOf (· ≤ x) d := by
        intro x hx
        rw [weightOf_cons, if_pos (hfirst x hx).le, Nat.add_assoc]
      rw [firstEnough]
      split
      · next henough =>
        refine ⟨key, rfl, ⟨List.mem_cons_self, hhead.symm ▸ henough⟩, ?_⟩
        rintro x ⟨hx, -⟩
        rcases List.mem_cons.mp hx with rfl | hx
        · exact le_rfl
        · exact (hfirst x hx).le
      · next hmore =>
        rw [List.map_cons, List.sum_cons, ← Nat.add_assoc] at hall
        have hne' : d ≠ [] := by
          rintro rfl
          exact hmore hall
        obtain ⟨least, hfound, ⟨hmem, henough⟩, hleast⟩ := ih hrest hne' hall
        refine ⟨least, hfound, ⟨List.mem_cons_of_mem _ hmem, htail hmem ▸ henough⟩, ?_⟩
        rintro x ⟨hx, hxenough⟩
        rcases List.mem_cons.mp hx with rfl | hx
        · exact absurd (hhead ▸ hxenough) hmore
        · exact hleast ⟨hx, htail hx ▸ hxenough⟩

end

end InstantTensor
