/-
# `InstantTensor.Capacity` — which chunk writes stay inside the allocation

A chunk is written with its padding, so the question is where the padded range of each
chunk ends.  Over a segment the padded ranges of the pieces add up to the padded range
of the segment (`Segment.chunk_devStop_le`, `Segment.covered`), and the capacity test of
the placement loop bounds that range for every segment that holds a tensor.

The exception is a segment without a tensor.  At a file switch `reset_chunk_file` opens
a segment for the page remainder in front of the file's first tensor; if that tensor
does not fit, `finish_chunk` pushes the remainder as a chunk of its own and no test is
made.  `HeadersFit` says that every such chunk fits, and the layout stays inside the
allocation exactly then (`Load.chunks_fit_iff`).
-/
import InstantTensor.Lib.Memory
import InstantTensor.Sites

namespace InstantTensor

section
variable {g : Geometry}

/-! ## Padded ranges of pieces -/

theorem Segment.chunk_devStop_le (hg : g.WF) {s : Segment} {q : ℕ}
    (hq : q * g.worldChunkSize < s.len) : (s.chunk g q).devStop g ≤ s.devStop g := by
  have hsplit : s.len = q * g.worldChunkSize + (s.len - q * g.worldChunkSize) := by omega
  have hround : roundUp s.len g.worldChunkAlignment = q * g.worldChunkSize
      + roundUp (s.len - q * g.worldChunkSize) g.worldChunkAlignment := by
    rw [← roundUp_add_left hg.world_pos (Nat.dvd_mul_left_of_dvd hg.world_dvd q), ← hsplit]
  have hpiece := roundUp_mono (Nat.min_le_right g.worldChunkSize (s.len - q * g.worldChunkSize))
    g.worldChunkAlignment
  simp only [Chunk.devStop, Segment.chunk, Segment.full, Segment.devStop]
  omega

/-- Every address of the padded range of a segment is in the padded range of a piece. -/
theorem Segment.covered (hg : g.WF) {s : Segment} {x : ℕ}
    (hx : x < roundUp s.len g.worldChunkAlignment) :
    ∃ c ∈ s.chunks g, c.deviceBufferOffset ≤ s.dev + x ∧ s.dev + x < c.devStop g := by
  have hle := Nat.div_mul_le_self x g.worldChunkSize
  have hlt := Nat.lt_div_mul_add hg.chunk_pos (a := x)
  set q := x / g.worldChunkSize with hq
  have hwhole : g.worldChunkAlignment ∣ q * g.worldChunkSize :=
    Nat.dvd_mul_left_of_dvd hg.world_dvd q
  have hlen : q * g.worldChunkSize < s.len := by
    by_contra hnot
    have hmono := roundUp_mono (Nat.not_lt.mp hnot) g.worldChunkAlignment
    rw [roundUp_of_dvd hg.world_pos hwhole] at hmono
    omega
  refine ⟨s.chunk g q, (Segment.mem_chunks hg).mpr ⟨q, hlen, rfl⟩, ?_, ?_⟩
  · simp only [Segment.chunk, Segment.full]
    omega
  · have hround : roundUp s.len g.worldChunkAlignment = q * g.worldChunkSize
        + roundUp (s.len - q * g.worldChunkSize) g.worldChunkAlignment := by
      rw [← roundUp_add_left hg.world_pos hwhole, Nat.add_sub_cancel' (Nat.le_of_lt hlen)]
    simp only [Chunk.devStop, Segment.chunk, Segment.full]
    rcases Nat.le_total g.worldChunkSize (s.len - q * g.worldChunkSize) with hfull | hrest
    · rw [Nat.min_eq_left hfull, roundUp_of_dvd hg.world_pos hg.world_dvd]
      omega
    · rw [Nat.min_eq_right hrest]
      omega

/-! ## The allocation -/

theorem Geometry.WF.thread_le_world (hg : g.WF) : g.threadAlignment ≤ g.worldChunkAlignment :=
  Nat.le_of_dvd hg.world_pos hg.thread_dvd

/-- A page remainder is padded to one world unit. -/
theorem Segment.Sound.header_devStop (hg : g.WF) {s : Segment} (h : s.Sound g)
    (hnil : s.extents = []) (hlen : s.len ≠ 0) :
    s.devStop g = s.dev + g.worldChunkAlignment := by
  have hpage := h.header hnil
  have hworld := hg.thread_le_world
  rw [Segment.devStop, roundUp_eq_of_le hg.world_pos (by omega) (by omega)]

theorem Segment.chunk_zero_devStop (hg : g.WF) {s : Segment} (h : s.Sound g)
    (hnil : s.extents = []) : (s.chunk g 0).devStop g = s.devStop g := by
  have hpage := h.header hnil
  have hchunk : g.threadAlignment ≤ g.worldChunkSize :=
    Nat.le_of_dvd hg.chunk_pos (hg.thread_dvd.trans hg.world_dvd)
  simp only [Chunk.devStop, Segment.chunk, Segment.full, Segment.devStop, Nat.zero_mul,
    Nat.sub_zero, Nat.add_zero, Nat.min_eq_right (show s.len ≤ g.worldChunkSize by omega)]

end

/-- Where a file switch is followed at once by a return to the start of the buffer, the
page remainder left behind is empty or has room for its padding. -/
def HeadersFit (g : Geometry) (laps : List Lap) : Prop :=
  ∀ lap ∈ laps, ∀ s ∈ lap, s.extents = [] → s.len = 0 ∨ s.dev + g.worldChunkAlignment ≤ g.bufferSize

instance (g : Geometry) (laps : List Lap) : Decidable (HeadersFit g laps) :=
  inferInstanceAs (Decidable (∀ lap ∈ laps, ∀ s ∈ lap, _ → _))

/-- **The chunk writes stay inside the allocation exactly when the page remainders
do.** -/
theorem Load.chunks_fit_iff (l : Load) :
    (∀ c ∈ l.layout.chunks, c.devStop l.geometry ≤ l.geometry.bufferSize)
      ↔ HeadersFit l.geometry l.plan := by
  have hg := l.wf
  rw [l.layout_eq]
  constructor
  · intro hfit lap hlap s hs hnil
    have hsound := (l.plan_sound lap hlap).segment s hs
    refine or_iff_not_imp_left.mpr fun hlen => ?_
    have hpos : 0 * l.geometry.worldChunkSize < s.len := by omega
    rw [← hsound.header_devStop hg hnil hlen, ← Segment.chunk_zero_devStop hg hsound hnil]
    exact hfit _ ((mem_settle_chunks hg).mpr ⟨lap, hlap, s, hs, 0, hpos, rfl⟩)
  · intro hheaders c hc
    obtain ⟨lap, hlap, s, hs, q, hq, rfl⟩ := (mem_settle_chunks hg).mp hc
    have hsound := (l.plan_sound lap hlap).segment s hs
    refine Nat.le_trans (Segment.chunk_devStop_le hg hq) ?_
    by_cases hnil : s.extents = []
    · have hlen : s.len ≠ 0 := by omega
      rw [hsound.header_devStop hg hnil hlen]
      exact (hheaders lap hlap s hs hnil).resolve_left hlen
    · exact hsound.fits hnil

/-- Two files, one rank, one thread: the first file fills the buffer up to 32 bytes, and the
first tensor of the second, behind a header of 100 bytes, does not fit any more. -/
def headerOverrun : Load := Load.of 4096 {
    rank := 0
    worldSize := 1
    bufferSize := 28672
    chunkSize := 4096
    numThreads := 1
    ioDepth := 1
    backend := .CUFILE
    tensorOffsets := [(0, 4096), (0, 32768), (0, 57344), (1, 100), (1, 110)] } (by decide)

/-- The remainder of the second file's header is written past the end of the allocation. -/
theorem headerOverrun_overruns :
    ¬ ∀ l : Load, ∀ c ∈ l.layout.chunks, c.devStop l.geometry ≤ l.geometry.bufferSize := by
  intro h
  have hoverrun : ¬ ∀ c ∈ headerOverrun.layout.chunks,
      c.devStop headerOverrun.geometry ≤ headerOverrun.geometry.bufferSize := by decide +kernel
  exact hoverrun (h headerOverrun)

end InstantTensor
