/-
# `InstantTensor.Recommendation` — the recommended buffer size

Tensor `i + 1` overlaps with the use of tensor `i` in a buffer with room for the first once and
the second twice.  `recommended_buffer_size_for_tensors` takes these sizes as candidates, each
with the bytes of the tensor it is for, and returns the least one at which enough of
all bytes overlap; merging equal candidates in a dictionary and sorting it do not change which
(`recommendation_isLeast`).
-/
import Mathlib.Data.List.MinMax
import Mathlib.Data.Nat.Cast.Order.Ring
import Mathlib.Tactic.NormNum
import InstantTensor.Lib.Tally
import InstantTensor.Frontend

namespace InstantTensor

/-- Each tensor behind the first, under the buffer size with which it overlaps with the one in
front of it. -/
def following (tensorSizes : List ℕ) : List (ℕ × ℕ) :=
  List.zipWith (fun size size' => (size + 2 * size', size')) tensorSizes tensorSizes.tail

/-- The candidates for the buffer size, each weighted with the tensor it is for. -/
def candidates : List ℕ → List (ℕ × ℕ)
  | [] => []
  | first :: sizes => (first, first) :: following (first :: sizes)

/-- The share `q` of all bytes overlaps in a buffer of `bufferSize` bytes. -/
def Overlaps (tensorSizes : List ℕ) (q : ℚ) (bufferSize : ℕ) : Prop :=
  q * tensorSizes.sum ≤ weightOf (· ≤ bufferSize) (candidates tensorSizes)

/-! ## The dictionary -/

theorem addOverlap_eq_addWeight (key size : ℕ) (d : List (ℕ × ℕ)) :
    addOverlap key size d = addWeight key size d := by
  induction d with
  | nil => rfl
  | cons e d ih => rw [addOverlap, addWeight, ih]

theorem leastOverlapping_eq_firstEnough (enough : ℚ) (d : List (ℕ × ℕ)) (sum : ℕ) :
    leastOverlapping enough d sum = firstEnough (fun n : ℕ => enough ≤ n) d sum := by
  induction d generalizing sum with
  | nil => rfl
  | cons e d ih => rw [leastOverlapping, firstEnough, ih]

section
variable {p : ℕ → Prop} [DecidablePred p]

theorem weightOf_overlappedSizes (tensorSizes : List ℕ) (d : List (ℕ × ℕ)) :
    weightOf p (overlappedSizes tensorSizes d) =
      weightOf p d + weightOf p (following tensorSizes) := by
  induction tensorSizes generalizing d with
  | nil => rfl
  | cons size sizes ih =>
      cases sizes with
      | nil => rfl
      | cons size' sizes =>
          rw [overlappedSizes, ih, addOverlap_eq_addWeight, weightOf_addWeight]
          show _ = weightOf p d + weightOf p ((size + 2 * size', size') :: following (size' :: sizes))
          rw [weightOf_cons, weightOf_cons]
          omega

theorem mem_keys_overlappedSizes {tensorSizes : List ℕ} {d : List (ℕ × ℕ)} {x : ℕ} :
    x ∈ (overlappedSizes tensorSizes d).map Prod.fst ↔
      x ∈ d.map Prod.fst ∨ x ∈ (following tensorSizes).map Prod.fst := by
  induction tensorSizes generalizing d with
  | nil => simp [overlappedSizes, following]
  | cons size sizes ih =>
      cases sizes with
      | nil => simp [overlappedSizes, following]
      | cons size' sizes =>
          rw [overlappedSizes, ih, addOverlap_eq_addWeight, mem_keys_addWeight]
          show _ ↔ _ ∨ x ∈ ((size + 2 * size', size') :: following (size' :: sizes)).map Prod.fst
          rw [List.map_cons, List.mem_cons, or_assoc, or_left_comm]

theorem nodup_keys_overlappedSizes (tensorSizes : List ℕ) {d : List (ℕ × ℕ)}
    (h : (d.map Prod.fst).Nodup) : ((overlappedSizes tensorSizes d).map Prod.fst).Nodup := by
  induction tensorSizes generalizing d with
  | nil => exact h
  | cons size sizes ih =>
      cases sizes with
      | nil => exact h
      | cons size' sizes =>
          rw [overlappedSizes, addOverlap_eq_addWeight]
          exact ih (nodup_keys_addWeight _ _ h)

end

/-! ## The least one -/

theorem map_snd_following (first : ℕ) (sizes : List ℕ) :
    (following (first :: sizes)).map Prod.snd = sizes := by
  induction sizes generalizing first with
  | nil => rfl
  | cons size sizes ih => exact congrArg (size :: ·) (ih size)

theorem isGreatest_foldl_max (first : ℕ) (sizes : List ℕ) :
    IsGreatest {size | size ∈ first :: sizes} (sizes.foldl max first) := by
  have hmax : (first :: sizes).max? = some (sizes.foldl max first) := List.max?_cons'
  refine ⟨List.max?_mem hmax, fun size hsize => ?_⟩
  exact (List.max?_le_iff hmax).mp le_rfl size hsize

/-- What is taken before the largest tensor comes into it. -/
theorem recommendedBufferSize_isLeast (first : ℕ) (sizes : List ℕ) {q : ℚ} (hq : q ≤ 1) :
    ∃ s, recommendedBufferSizeForTensors (first :: sizes) q = .ok (max s (sizes.foldl max first)) ∧
      IsLeast {c | c ∈ (candidates (first :: sizes)).map Prod.fst ∧ Overlaps (first :: sizes) q c}
        s := by
  set d := overlappedSizes (first :: sizes) [(first, first)] with hd
  set sorted := d.mergeSort fun a b => decide (a.1 ≤ b.1) with hsort
  have hperm : sorted.Perm d := List.mergeSort_perm d fun a b => decide (a.1 ≤ b.1)
  have hweight : ∀ (p : ℕ → Prop) [DecidablePred p],
      weightOf p sorted = weightOf p (candidates (first :: sizes)) := by
    intro p _
    rw [weightOf_perm hperm, hd, weightOf_overlappedSizes, candidates, weightOf_cons, weightOf_cons,
      weightOf_nil, Nat.add_zero]
  have hkeys : ∀ x, x ∈ sorted.map Prod.fst ↔ x ∈ (candidates (first :: sizes)).map Prod.fst := by
    intro x
    rw [(hperm.map Prod.fst).mem_iff, hd, mem_keys_overlappedSizes]
    exact List.mem_append.symm
  have hsorted : (sorted.map Prod.fst).Pairwise (· < ·) := by
    have hle : (sorted.map Prod.fst).Pairwise (· ≤ ·) := by
      refine List.pairwise_map.mpr (List.Pairwise.imp of_decide_eq_true
        (List.pairwise_mergeSort (fun a b c hab hbc => ?_) (fun a b => ?_) d))
      · exact decide_eq_true ((of_decide_eq_true hab).trans (of_decide_eq_true hbc))
      · rw [Bool.or_eq_true, decide_eq_true_iff, decide_eq_true_iff]
        exact le_total _ _
    have hne : (sorted.map Prod.fst).Nodup :=
      (hperm.map Prod.fst).nodup_iff.mpr
        (nodup_keys_overlappedSizes _ (List.nodup_singleton first))
    exact hle.imp₂ (fun _ _ => lt_of_le_of_ne) hne
  have hne : sorted ≠ [] := by
    intro hnil
    have hfirst := (hkeys first).mpr List.mem_cons_self
    rw [hnil] at hfirst
    cases hfirst
  have hsum : (sorted.map Prod.snd).sum = (first :: sizes).sum := by
    have hall := hweight fun _ => True
    rw [weightOf_of_forall fun _ _ => trivial, weightOf_of_forall fun _ _ => trivial, candidates,
      List.map_cons, map_snd_following] at hall
    exact hall
  have htotal : (d.map Prod.snd).sum = (first :: sizes).sum :=
    ((hperm.map Prod.snd).sum_nat).symm.trans hsum
  have henough : ((first :: sizes).sum : ℚ) * q ≤ ((0 + (sorted.map Prod.snd).sum : ℕ) : ℚ) := by
    rw [hsum, Nat.zero_add]
    exact mul_le_of_le_one_right (Nat.cast_nonneg _) hq
  obtain ⟨s, hs, hleast⟩ := @firstEnough_isLeast ℕ
    (fun n : ℕ => ((first :: sizes).sum : ℚ) * q ≤ n) _ _ sorted 0 hsorted hne henough
  refine ⟨s, ?_, ?_⟩
  · rw [← leastOverlapping_eq_firstEnough] at hs
    simp only [recommendedBufferSizeForTensors, ← hd, htotal, ← hsort, hs]
  · simp only [hkeys, hweight, Nat.zero_add] at hleast
    simp only [Overlaps, mul_comm q]
    exact hleast

/-- **The recommended buffer size is the least sufficient one**, and grows with the share asked
for. -/
theorem recommendation_least_sufficient (first : ℕ) (sizes : List ℕ) {q : ℚ} (hq : q ≤ 1) :
    (∃ s M, recommendedBufferSizeForTensors (first :: sizes) q = .ok (max M s) ∧
      IsGreatest {size | size ∈ first :: sizes} M ∧
      IsLeast {c | c ∈ (candidates (first :: sizes)).map Prod.fst ∧ Overlaps (first :: sizes) q c}
        s) ∧
    ∀ q' b b', q' ≤ q → recommendedBufferSizeForTensors (first :: sizes) q' = .ok b' →
      recommendedBufferSizeForTensors (first :: sizes) q = .ok b → b' ≤ b := by
  obtain ⟨s, hs, hleast⟩ := recommendedBufferSize_isLeast first sizes hq
  refine ⟨⟨s, _, max_comm s _ ▸ hs, isGreatest_foldl_max first sizes, hleast⟩, ?_⟩
  intro q' b b' hle hb' hb
  obtain ⟨s', hs', hleast'⟩ := recommendedBufferSize_isLeast first sizes (hle.trans hq)
  obtain rfl := Except.ok.inj (hs.symm.trans hb)
  obtain rfl := Except.ok.inj (hs'.symm.trans hb')
  refine max_le_max_right _ (hleast.mono hleast' fun c hc => ⟨hc.1, ?_⟩)
  exact (mul_le_mul_of_nonneg_right hle (Nat.cast_nonneg _)).trans hc.2

/-- A large tensor in front of two small ones.  30 bytes let 10 of the 120 overlap; in 100 bytes
the first tensor counts too. -/
theorem recommendation_default : ∃ s M, recommendedBufferSizeForTensors [100, 10, 10] overlapFactor
      = .ok (max M s) ∧ IsGreatest {size | size ∈ [100, 10, 10]} M ∧
      IsLeast {c | c ∈ (candidates [100, 10, 10]).map Prod.fst ∧
        Overlaps [100, 10, 10] overlapFactor c} s :=
  (recommendation_least_sufficient 100 [10, 10]
    (show overlapFactor ≤ 1 by norm_num [overlapFactor])).1

end InstantTensor
