/-
# `InstantTensor.Shrinking` — fitting a request to the memory

`_determine_io_params` first lowers `io_depth` and then `concurrency` until the reads in flight
fit in the available bytes, and gives up where one thread with the least depth does not.  The
depth is never lowered below 3; a request for less that does not fit is raised to 3
instead, and everything behind this step then reckons with 3 (`shrink_exact_iff`).
-/
import Mathlib.Tactic.Linarith
import InstantTensor.Lib.Fallible
import InstantTensor.Frontend

namespace InstantTensor

structure IOParams.Positive (p : IOParams) : Prop where
  chunkSize : 0 < p.chunkSize
  concurrency : 0 < p.concurrency
  ioDepth : 0 < p.ioDepth

/-- Shrinking only shrinks, and fails only when it must. -/
structure ShrinksExactly (worldSize : ℕ) (availBytes : ℤ) (p : IOParams) : Prop where
  shrunk : ∀ p', shrink worldSize availBytes p = .ok p' → p'.chunkSize = p.chunkSize ∧
    1 ≤ p'.ioDepth ∧ p'.ioDepth ≤ p.ioDepth ∧ 1 ≤ p'.concurrency ∧ p'.concurrency ≤ p.concurrency
  fits : ∀ p', shrink worldSize availBytes p = .ok p' → p'.bytes worldSize ≤ availBytes
  /-- A request that fits is kept. -/
  kept : p.bytes worldSize ≤ availBytes → shrink worldSize availBytes p = .ok p
  /-- Every depth above the one returned was too much. -/
  deepest : ∀ p', shrink worldSize availBytes p = .ok p' → ∀ depth, p'.ioDepth < depth →
    depth ≤ p.ioDepth → availBytes < { p with ioDepth := depth }.bytes worldSize
  raises : ∀ e, shrink worldSize availBytes p = .error e → e = .deviceMemory
  raises_iff : shrink worldSize availBytes p = .error .deviceMemory ↔
    availBytes < p.chunkSize * min p.ioDepth 3 * worldSize

section
variable {worldSize : ℕ} {availBytes : ℤ} {p : IOParams}

theorem shrink_of_le (h : p.bytes worldSize ≤ availBytes) :
    shrink worldSize availBytes p = .ok p := by
  have hnot : ¬ availBytes < p.bytes worldSize := not_lt.mpr h
  rw [shrink, shrinkIODepth, if_neg hnot, ok_bind, shrinkConcurrency, if_neg hnot, ok_bind,
    if_neg hnot]

theorem floorDiv_of_pos {a b : ℤ} (hb : 0 < b) : floorDiv a b = .ok (a / b) := by
  rw [floorDiv, if_neg hb.ne', Int.fdiv_eq_ediv_of_nonneg a hb.le]

/-! ## The two steps -/

theorem IOParams.bytes_eq_mul_ioDepth (worldSize : ℕ) (p : IOParams) :
    p.bytes worldSize = p.ioDepth * (p.chunkSize * p.concurrency * worldSize) := by
  rw [IOParams.bytes]
  ring

theorem IOParams.bytes_eq_mul_concurrency (worldSize : ℕ) (p : IOParams) :
    p.bytes worldSize = p.concurrency * (p.chunkSize * p.ioDepth * worldSize) := by
  rw [IOParams.bytes]
  ring

/-- The depth of a request that does not fit: 3, or as much as the memory has room for. -/
theorem shrinkIODepth_spec (hp : p.Positive) (hw : 0 < worldSize)
    (h : availBytes < p.bytes worldSize) : ∃ depth,
    shrinkIODepth worldSize availBytes p = .ok { p with ioDepth := depth } ∧ 3 ≤ depth ∧
      (depth = 3 ∨ depth < p.ioDepth ∧ { p with ioDepth := depth }.bytes worldSize ≤ availBytes) ∧
      ∀ more, depth < more → availBytes < { p with ioDepth := more }.bytes worldSize := by
  have hunit : 0 < p.chunkSize * p.concurrency * worldSize :=
    mul_pos (mul_pos hp.chunkSize hp.concurrency) (Int.natCast_pos.mpr hw)
  have hbytes := fun depth => IOParams.bytes_eq_mul_ioDepth worldSize { p with ioDepth := depth }
  set unit := p.chunkSize * p.concurrency * worldSize with hunit_eq
  refine ⟨max (availBytes / unit) 3, ?_, le_max_right _ _, ?_, ?_⟩
  · rw [shrinkIODepth, if_pos h, floorDiv_of_pos hunit]
    rfl
  · rcases le_total (availBytes / unit) 3 with hle | hle
    · exact .inl (max_eq_right hle)
    · right
      rw [max_eq_left hle]
      refine ⟨?_, ?_⟩
      · rw [p.bytes_eq_mul_ioDepth] at h
        exact (Int.ediv_lt_iff_lt_mul hunit).mpr h
      · rw [hbytes]
        exact (Int.le_ediv_iff_mul_le hunit).mp le_rfl
  · intro more hmore
    rw [hbytes]
    exact (Int.ediv_lt_iff_lt_mul hunit).mp ((le_max_left _ _).trans_lt hmore)

/-- The concurrency fits if that of one thread does. -/
theorem shrinkConcurrency_spec (hp : p.Positive) (hw : 0 < worldSize) : ∃ concurrency,
    shrinkConcurrency worldSize availBytes p = .ok { p with concurrency } ∧
      1 ≤ concurrency ∧ concurrency ≤ p.concurrency ∧
      ({ p with concurrency }.bytes worldSize ≤ availBytes ↔
        p.chunkSize * p.ioDepth * worldSize ≤ availBytes) := by
  have hunit : 0 < p.chunkSize * p.ioDepth * worldSize :=
    mul_pos (mul_pos hp.chunkSize hp.ioDepth) (Int.natCast_pos.mpr hw)
  have hbytes := fun concurrency =>
    IOParams.bytes_eq_mul_concurrency worldSize { p with concurrency }
  set unit := p.chunkSize * p.ioDepth * worldSize with hunit_eq
  by_cases h : availBytes < p.bytes worldSize
  · refine ⟨max (availBytes / unit) 1, ?_, le_max_right _ _, ?_, ?_⟩
    · rw [shrinkConcurrency, if_pos h, floorDiv_of_pos hunit]
      rfl
    · rw [p.bytes_eq_mul_concurrency] at h
      exact max_le ((Int.ediv_lt_iff_lt_mul hunit).mpr h).le hp.concurrency
    · rw [hbytes]
      rcases le_total (availBytes / unit) 1 with hle | hle
      · rw [max_eq_right hle, one_mul]
      · rw [max_eq_left hle]
        have hone := (Int.le_ediv_iff_mul_le hunit).mp hle
        rw [one_mul] at hone
        exact iff_of_true ((Int.le_ediv_iff_mul_le hunit).mp le_rfl) hone
  · refine ⟨p.concurrency, ?_, hp.concurrency, le_rfl, ?_⟩
    · rw [shrinkConcurrency, if_neg h]
    · have hle := not_lt.mp h
      refine iff_of_true hle (le_trans ?_ hle)
      rw [p.bytes_eq_mul_concurrency]
      exact le_mul_of_one_le_left hunit.le hp.concurrency

/-! ## Both steps -/

/-- What a request that does not fit comes to. -/
structure Shrunk (worldSize : ℕ) (availBytes : ℤ) (p p' : IOParams) : Prop where
  chunkSize : p'.chunkSize = p.chunkSize
  depth_ge : 3 ≤ p'.ioDepth
  depth_le : p'.ioDepth = 3 ∨
    p'.ioDepth < p.ioDepth ∧ p.chunkSize * p'.ioDepth * worldSize ≤ availBytes
  deepest : ∀ depth, p'.ioDepth < depth → availBytes < { p with ioDepth := depth }.bytes worldSize
  concurrency_pos : 1 ≤ p'.concurrency
  concurrency_le : p'.concurrency ≤ p.concurrency
  returns : p.chunkSize * p'.ioDepth * worldSize ≤ availBytes →
    p'.bytes worldSize ≤ availBytes ∧ shrink worldSize availBytes p = .ok p'
  raises : availBytes < p.chunkSize * p'.ioDepth * worldSize →
    shrink worldSize availBytes p = .error .deviceMemory

theorem shrink_of_lt (hp : p.Positive) (hw : 0 < worldSize) (h : availBytes < p.bytes worldSize) :
    ∃ p', Shrunk worldSize availBytes p p' := by
  obtain ⟨depth, hdepth, hthree, hle, hdeepest⟩ := shrinkIODepth_spec hp hw h
  have hp' : IOParams.Positive { p with ioDepth := depth } :=
    ⟨hp.chunkSize, hp.concurrency, by simp only; omega⟩
  obtain ⟨concurrency, hconcurrency, hone, hmost, hfits⟩ :=
    @shrinkConcurrency_spec worldSize availBytes _ hp' hw
  refine ⟨{ p with ioDepth := depth, concurrency }, rfl, hthree, ?_, hdeepest, hone, hmost, ?_, ?_⟩
  · refine hle.imp_right fun ⟨hlt, hroom⟩ => ⟨hlt, le_trans ?_ hroom⟩
    have hunit : 0 < p.chunkSize * depth * worldSize :=
      mul_pos (mul_pos hp'.chunkSize hp'.ioDepth) (Int.natCast_pos.mpr hw)
    rw [IOParams.bytes_eq_mul_concurrency]
    exact le_mul_of_one_le_left hunit.le hp.concurrency
  · intro hthread
    have hroom := hfits.mpr hthread
    refine ⟨hroom, ?_⟩
    rw [shrink, hdepth, ok_bind, hconcurrency, ok_bind, if_neg (not_lt.mpr hroom)]
  · intro hthread
    have hmore := not_le.mp (hfits.not.mpr (not_le.mpr hthread))
    rw [shrink, hdepth, ok_bind, hconcurrency, ok_bind, if_pos hmore]

theorem Shrunk.raises_iff {p' : IOParams} (h : Shrunk worldSize availBytes p p') :
    shrink worldSize availBytes p = .error .deviceMemory ↔
      availBytes < p.chunkSize * p'.ioDepth * worldSize := by
  refine ⟨fun he => ?_, h.raises⟩
  by_contra hroom
  cases he.symm.trans (h.returns (not_lt.mp hroom)).2

theorem Shrunk.eq_of_ok {p' q : IOParams} (h : Shrunk worldSize availBytes p p')
    (hq : shrink worldSize availBytes p = .ok q) :
    p' = q ∧ p.chunkSize * p'.ioDepth * worldSize ≤ availBytes := by
  rcases le_or_gt (p.chunkSize * p'.ioDepth * worldSize) availBytes with hroom | hmore
  · exact ⟨Except.ok.inj ((h.returns hroom).2.symm.trans hq), hroom⟩
  · cases (h.raises hmore).symm.trans hq

/-! ## When it is exact -/

theorem shrinksExactly_of_le (hp : p.Positive) (hw : 0 < worldSize)
    (hfits : p.bytes worldSize ≤ availBytes) : ShrinksExactly worldSize availBytes p := by
  have hkept := shrink_of_le hfits
  have hw' : (0 : ℤ) < worldSize := Int.natCast_pos.mpr hw
  have hsame : ∀ {p'}, shrink worldSize availBytes p = .ok p' → p = p' :=
    fun hp' => Except.ok.inj (hkept.symm.trans hp')
  have hleast : p.chunkSize * min p.ioDepth 3 * worldSize ≤ availBytes :=
    calc p.chunkSize * min p.ioDepth 3 * worldSize
        ≤ p.chunkSize * p.ioDepth * worldSize := by
          refine mul_le_mul_of_nonneg_right ?_ hw'.le
          exact mul_le_mul_of_nonneg_left (min_le_left _ _) hp.chunkSize.le
      _ ≤ p.concurrency * (p.chunkSize * p.ioDepth * worldSize) :=
          le_mul_of_one_le_left (mul_pos (mul_pos hp.chunkSize hp.ioDepth) hw').le hp.concurrency
      _ = p.bytes worldSize := (p.bytes_eq_mul_concurrency worldSize).symm
      _ ≤ availBytes := hfits
  constructor
  case shrunk =>
    intro p' hp'
    obtain rfl := hsame hp'
    exact ⟨rfl, hp.ioDepth, le_rfl, hp.concurrency, le_rfl⟩
  case fits =>
    intro p' hp'
    obtain rfl := hsame hp'
    exact hfits
  case kept => exact fun _ => hkept
  case deepest =>
    intro p' hp' depth hmore hle
    obtain rfl := hsame hp'
    omega
  case raises =>
    intro e he
    cases hkept.symm.trans he
  case raises_iff =>
    refine iff_of_false ?_ (not_lt.mpr hleast)
    intro he
    cases hkept.symm.trans he

theorem shrinksExactly_of_lt {p' : IOParams} (h : Shrunk worldSize availBytes p p')
    (hlt : availBytes < p.bytes worldSize) (hle : p'.ioDepth ≤ p.ioDepth ∨
      availBytes < p.chunkSize * p'.ioDepth * worldSize)
    (hleast : availBytes < p.chunkSize * p'.ioDepth * worldSize ↔
      availBytes < p.chunkSize * min p.ioDepth 3 * worldSize) :
    ShrinksExactly worldSize availBytes p where
  shrunk := by
    intro q hq
    obtain ⟨rfl, hroom⟩ := h.eq_of_ok hq
    have hdepth := h.depth_ge
    exact ⟨h.chunkSize, by omega, hle.resolve_right (not_lt.mpr hroom), h.concurrency_pos,
      h.concurrency_le⟩
  fits := by
    intro q hq
    obtain ⟨rfl, hroom⟩ := h.eq_of_ok hq
    exact (h.returns hroom).1
  kept := fun hfits => absurd hlt (not_lt.mpr hfits)
  deepest := by
    intro q hq depth hmore _
    obtain ⟨rfl, -⟩ := h.eq_of_ok hq
    exact h.deepest depth hmore
  raises := by
    intro e he
    rcases le_or_gt (p.chunkSize * p'.ioDepth * worldSize) availBytes with hroom | hmore
    · cases (h.returns hroom).2.symm.trans he
    · exact Except.error.inj (he.symm.trans (h.raises hmore))
  raises_iff := h.raises_iff.trans hleast

end

/-- **Shrinking only shrinks, and fails only when it must**, exactly when the request is for a
depth of at least 3, or fits, or does not fit with one thread either. -/
theorem shrink_exact_iff {worldSize : ℕ} {availBytes : ℤ} {p : IOParams} (hp : p.Positive)
    (hw : 0 < worldSize) :
    ShrinksExactly worldSize availBytes p ↔ p.bytes worldSize ≤ availBytes ∨ 3 ≤ p.ioDepth ∨
      availBytes < p.chunkSize * p.ioDepth * worldSize := by
  have hmono : ∀ {d d' : ℤ}, d ≤ d' → p.chunkSize * d * worldSize ≤ p.chunkSize * d' * worldSize := by
    intro d d' hd
    refine mul_le_mul_of_nonneg_right ?_ (Int.natCast_nonneg _)
    exact mul_le_mul_of_nonneg_left hd hp.chunkSize.le
  rcases le_or_gt (p.bytes worldSize) availBytes with hfits | hlt
  · exact iff_of_true (shrinksExactly_of_le hp hw hfits) (.inl hfits)
  obtain ⟨p', h⟩ := shrink_of_lt hp hw hlt
  have hge := h.depth_ge
  rw [or_iff_right (not_le.mpr hlt)]
  rcases le_or_gt 3 p.ioDepth with hdepth | hdepth
  · refine iff_of_true (shrinksExactly_of_lt h hlt (.inl ?_) ?_) (.inl hdepth)
    · rcases h.depth_le with h3 | ⟨hless, -⟩ <;> omega
    · rw [min_eq_right hdepth]
      rcases h.depth_le with h3 | ⟨-, hroom⟩
      · rw [h3]
      · exact iff_of_false (not_lt.mpr hroom) (not_lt.mpr ((hmono hge).trans hroom))
  · -- a lesser depth is raised to 3
    have hmin : min p.ioDepth 3 = p.ioDepth := min_eq_left hdepth.le
    rw [or_iff_right (not_le.mpr hdepth)]
    constructor
    · intro hexact
      by_contra hroom
      have hreturns : p.chunkSize * p'.ioDepth * worldSize ≤ availBytes := by
        by_contra hmore
        have hraises := hexact.raises_iff.mp (h.raises (not_le.mp hmore))
        rw [hmin] at hraises
        exact hroom hraises
      have hle := (hexact.shrunk p' (h.returns hreturns).2).2.2.1
      omega
    · intro hmore
      have hmore' := hmore.trans_le (hmono (hdepth.le.trans hge))
      refine shrinksExactly_of_lt h hlt (.inr hmore') ?_
      rw [hmin]
      exact iff_of_true hmore' hmore

/-- The default request of eight ranks on files on disk, with memory for a depth of 21. -/
theorem shrink_exact_default :
    ShrinksExactly 8 1473773072 (diskParams 8 Backend.URING ⟨none, none, none, none, none⟩) :=
  (shrink_exact_iff ⟨by decide, by decide, by decide⟩ (by decide)).mpr (.inr (.inl (by decide)))

/-- Four threads with one read of 8 MiB each, and memory for two such reads: not enough, as
three for each thread are reckoned with. -/
theorem shallowRequest_raises : ¬ ∀ (worldSize : ℕ) (availBytes : ℤ) (p : IOParams), p.Positive →
    0 < worldSize → 0 ≤ availBytes → ShrinksExactly worldSize availBytes p := by
  intro h
  have hexact := h 1 (16 * MiB) { chunkSize := 8 * MiB, concurrency := 4, ioDepth := 1 }
    ⟨by decide, by decide, by decide⟩ (by decide) (by decide)
  have hmust := hexact.raises_iff.mp (by decide)
  revert hmust
  decide

end InstantTensor
