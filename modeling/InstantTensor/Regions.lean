/-
# `InstantTensor.Regions` — which parts of the buffers the chunks in flight use

A read of AIO, URING or MMAP stays in the window of its chunk in the host buffer, one of CUFILE in
the padded device range of its chunk, and so does whatever the streams write.  Chunks in flight have
windows of their own, and where overlaps are guarded (`Load.CollisionsGuarded`) device ranges
of their own (`Loader.Spread`).  So of two different reads in flight neither can reach the bytes
of the other (`Spread.read_misses`).
-/
import InstantTensor.Ranks
import InstantTensor.Windows

namespace InstantTensor

namespace Load

variable {l : Load} {c : ℕ} {chunk : Chunk}

/-- What `post_read_chunk` computes of chunk `c`. -/
def params (l : Load) (c : ℕ) (chunk : Chunk) : ChunkIOParams :=
  chunkIOParams l.geometry l.args c chunk

theorem padded (hchunk : l.layout.chunks[c]? = some chunk) :
    chunk.Padded l.pageSize l.args (l.params c chunk).paddedThreadSize
      (l.params c chunk).paddedRankSize :=
  rankParams_padded c l.page_pos l.admitted.numThreads_pos l.admitted.worldSize_pos
    (l.postable (List.mem_of_getElem? hchunk)) l.args.rank

/-- The pieces of all ranks make up the padded device range of the chunk. -/
theorem paddedRankSize_mul (l : Load) (c : ℕ) (chunk : Chunk) :
    chunk.deviceBufferOffset + (l.params c chunk).paddedRankSize * l.args.worldSize
      = chunk.devStop l.geometry := by
  have hdvd : l.args.worldSize ∣ roundUp chunk.size l.geometry.worldChunkAlignment :=
    Nat.dvd_trans (Nat.dvd_mul_left _ _) (dvd_roundUp chunk.size l.geometry.worldChunkAlignment)
  exact congrArg (chunk.deviceBufferOffset + ·) (Nat.div_mul_cancel hdvd)

/-- The piece of a rank is inside the range of the chunk. -/
theorem rank_piece_le (hr : l.args.rank < l.args.worldSize) (c : ℕ) (chunk : Chunk) :
    chunk.deviceBufferOffset ≤ (l.params c chunk).rankDst ∧
      (l.params c chunk).rankDst + (l.params c chunk).paddedRankSize ≤ chunk.devStop l.geometry := by
  have hstop := l.paddedRankSize_mul c chunk
  have hmul := Nat.mul_le_mul_left (l.params c chunk).paddedRankSize (Nat.succ_le_of_lt hr)
  have hdst : (l.params c chunk).rankDst
      = chunk.deviceBufferOffset + (l.params c chunk).paddedRankSize * l.args.rank := rfl
  rw [Nat.mul_succ] at hmul
  omega

/-! ## The reads of a chunk -/

theorem mem_reads {rd : Read} : rd ∈ l.reads c ↔ ∃ chunk, l.layout.chunks[c]? = some chunk ∧
    ∃ i < l.args.numThreads, 0 < (l.params c chunk).threadSize i ∧
      rd = slice l.geometry l.args (l.params c chunk) i := by
  unfold reads
  cases hchunk : l.layout.chunks[c]? with
  | none => simp
  | some chunk =>
      simp only [issued_eq, mem_wanted, Option.some.injEq, exists_eq_left']
      rfl

/-- No read has a longer extent than its slice of the padded piece. -/
theorem slice_extent_le (hchunk : l.layout.chunks[c]? = some chunk) (i : ℕ) :
    max (slice l.geometry l.args (l.params c chunk) i).size
        (slice l.geometry l.args (l.params c chunk) i).request
      ≤ (l.params c chunk).paddedThreadSize := by
  have hsize : (slice l.geometry l.args (l.params c chunk) i).size
      ≤ (l.params c chunk).paddedThreadSize := threadSize_le _ i
  have hround : roundUp ((l.params c chunk).threadSize i) l.geometry.threadAlignment
      ≤ (l.params c chunk).paddedThreadSize :=
    roundUp_threadSize_le l.page_pos (padded hchunk).page i
  refine max_le hsize ?_
  change requestSize l.geometry l.args ((l.params c chunk).threadSize i) ≤ _
  unfold requestSize
  split
  · exact hround
  · exact hround
  · exact Nat.le_trans (Nat.mod_le _ _) hround
  · exact Nat.le_trans (Nat.mod_le _ _) hround
  · exact hsize
  · exact hsize

end Load

/-- Whatever is asked for, the read stays in `[lo, hi)`. -/
def Read.Inside (rd : Read) (lo hi : ℕ) : Prop :=
  lo ≤ rd.bufferOffset ∧ rd.bufferOffset + max rd.size rd.request ≤ hi

theorem Read.Inside.landed_misses {α : Type} {file : ℕ → ℕ → α} {rd : Read} {lo hi a : ℕ}
    (h : rd.Inside lo hi) (ha : a < lo ∨ hi ≤ a) (result : ℤ) :
    (rd.landed file result).Misses a := by
  obtain ⟨hlo, hhi⟩ := h
  simp only [Write.Misses, Read.landed]
  omega

namespace Load

variable {l : Load} {c : ℕ} {chunk : Chunk} {rd : Read}

/-- A read stays in the piece of its rank. -/
theorem reads_inside (hrd : rd ∈ l.reads c) : ∃ chunk, l.layout.chunks[c]? = some chunk ∧
    rd.Inside ((l.params c chunk).readBase l.args)
      ((l.params c chunk).readBase l.args + (l.params c chunk).paddedRankSize) := by
  obtain ⟨chunk, hchunk, i, hi, -, rfl⟩ := mem_reads.mp hrd
  refine ⟨chunk, hchunk, ?_⟩
  have hextent := slice_extent_le hchunk i
  have hthread : (l.params c chunk).threadOffset i + (l.params c chunk).paddedThreadSize
      ≤ (l.params c chunk).paddedRankSize :=
    Nat.le_trans (threadOffset_add_le hi) (Nat.le_of_eq (padded hchunk).rank_eq.symm)
  unfold Read.Inside
  rw [slice_bufferOffset]
  omega

/-- The window of chunk `c` begins here. -/
def windowStart (l : Load) (c : ℕ) : ℕ := c % l.args.ioDepth * l.geometry.rankChunkSize

theorem readBase_eq (hb : l.args.backend ≠ Backend.CUFILE) (c : ℕ) (chunk : Chunk) :
    (l.params c chunk).readBase l.args = l.windowStart c := by
  unfold ChunkIOParams.readBase
  cases hbackend : l.args.backend <;> first | rfl | exact absurd hbackend hb

theorem reads_inside_window (hb : l.args.backend ≠ Backend.CUFILE) (hrd : rd ∈ l.reads c) :
    rd.Inside (l.windowStart c) (l.windowStart c + l.geometry.rankChunkSize) := by
  obtain ⟨chunk, hchunk, hlo, hhi⟩ := reads_inside hrd
  have hbase := readBase_eq hb c chunk
  have hrank : (l.params c chunk).paddedRankSize ≤ l.geometry.rankChunkSize := by
    rw [(padded hchunk).rank_eq]
    exact Nat.mul_le_mul_right l.args.numThreads (padded hchunk).thread_le
  rw [hbase] at hlo hhi
  exact ⟨hlo, by omega⟩

theorem reads_inside_device (hb : l.args.backend = Backend.CUFILE)
    (hr : l.args.rank < l.args.worldSize) (hrd : rd ∈ l.reads c) :
    ∃ chunk, l.layout.chunks[c]? = some chunk ∧
      rd.Inside chunk.deviceBufferOffset (chunk.devStop l.geometry) := by
  obtain ⟨chunk, hchunk, hlo, hhi⟩ := reads_inside hrd
  have hbase : (l.params c chunk).readBase l.args = (l.params c chunk).rankDst := by
    rw [ChunkIOParams.readBase, hb]
    rfl
  obtain ⟨hge, hle⟩ := l.rank_piece_le hr c chunk
  rw [hbase] at hlo hhi
  exact ⟨chunk, hchunk, Nat.le_trans hge hlo, Nat.le_trans hhi hle⟩

/-- Two reads of one chunk leave each other's bytes alone. -/
theorem reads_apart {α : Type} {file : ℕ → ℕ → α} {rd' : Read} (hrd : rd ∈ l.reads c)
    (hrd' : rd' ∈ l.reads c) (hne : rd ≠ rd') {b : ℕ} (hb : b < rd.size) (result : ℤ) :
    (rd'.landed file result).Misses (rd.bufferOffset + b) := by
  obtain ⟨chunk, hchunk, i, hi, -, rfl⟩ := mem_reads.mp hrd
  obtain ⟨chunk', hchunk', j, hj, -, rfl⟩ := mem_reads.mp hrd'
  cases hchunk.symm.trans hchunk'
  have hij : i ≠ j := fun heq => hne (by rw [heq])
  have hextent := slice_extent_le hchunk j
  have hsize : (slice l.geometry l.args (l.params c chunk) i).size
      ≤ (l.params c chunk).paddedThreadSize := threadSize_le _ i
  have hside : (slice l.geometry l.args (l.params c chunk) i).bufferOffset
        + (l.params c chunk).paddedThreadSize
      ≤ (slice l.geometry l.args (l.params c chunk) j).bufferOffset ∨
      (slice l.geometry l.args (l.params c chunk) j).bufferOffset
        + (l.params c chunk).paddedThreadSize
      ≤ (slice l.geometry l.args (l.params c chunk) i).bufferOffset := by
    rw [slice_bufferOffset, slice_bufferOffset]
    rcases Nat.lt_or_gt_of_ne hij with hlt | hgt
    · have hnext := threadOffset_add_le (p := l.params c chunk) hlt
      omega
    · have hnext := threadOffset_add_le (p := l.params c chunk) hgt
      omega
  simp only [Write.Misses, Read.landed]
  omega

end Load

/-! ## Chunks in flight -/

/-- Outstanding chunks are within a window and do not overlap on the device. -/
structure Loader.Spread (l : Load) (s : Loader) : Prop where
  window : s.chunkReading - s.chunkRead ≤ l.window
  device : ∀ i j : ℕ, i < j → (j : ℤ) ≤ s.chunkReading → l.layout.Collide l.geometry i j →
    (i : ℤ) ≤ s.chunkRead

namespace Load

variable {l : Load} {n : ℕ} {s : Loader}

/-- The loader keeps outstanding chunks within a window. -/
theorem run_window {gets : List ℕ} (h : Run (Loader.next l.pageSize) (l.start gets) s) :
    s.chunkReading - s.chunkRead ≤ l.window := by
  have hpos := l.window_pos
  rcases l.run_start h with rfl | hrun
  · exact le_of_lt hpos
  · refine (run_invariant (P := fun s => s.chunkReading - s.chunkRead ≤ l.window) ?_ ?_
      (l.opened_opened gets) (le_of_lt hpos) hrun).2
    · intro s s' ho hP hm
      have hread : s.chunkReading + 1 - s.window ≤ s.readAtPost := le_max_right _ _
      rw [ho.window_eq] at hread
      cases hm with
      | post => simp only [Loader.posted]; omega
      | postAwaited => simp only [Loader.posted]; omega
      | reap => simp only; omega
      | poll => simp only; omega
      | _ => exact hP
    · exact fun s _ e _ hP _ => hP

/-- Every posted chunk has its event, with what had been reaped when it was posted. -/
theorem run_posted {gets : List ℕ} (h : Run (Loader.next l.pageSize) (l.start gets) s) (j : ℕ)
    (hj : (j : ℤ) ≤ s.chunkReading) : ∃ r, .posted j r ∈ s.log ∧ r ≤ s.chunkRead := by
  rcases l.run_start h with rfl | hrun
  · exact absurd hj (show ¬ (j : ℤ) ≤ -1 by omega)
  · refine (run_invariant (P := fun s => ∀ j : ℕ, (j : ℤ) ≤ s.chunkReading →
      ∃ r, .posted j r ∈ s.log ∧ r ≤ s.chunkRead) ?_ ?_ (l.opened_opened gets) ?_ hrun).2 j hj
    · intro s s' ho hP hm
      have hread := hm.reads.2
      -- the events of before, and one more at a post
      have hold : (∀ e ∈ s.log, e ∈ s'.log) → ∀ j : ℕ, (j : ℤ) ≤ s.chunkReading →
          ∃ r, .posted j r ∈ s'.log ∧ r ≤ s'.chunkRead := by
        intro hlog j hj
        obtain ⟨r, hmem, hle⟩ := hP j hj
        exact ⟨r, hlog _ hmem, Int.le_trans hle hread⟩
      have hnew : s'.chunkReading = s.chunkReading + 1 →
          s'.log = .posted (s.chunkReading + 1) s'.chunkRead :: s.log →
          ∀ j : ℕ, (j : ℤ) ≤ s'.chunkReading → ∃ r, .posted j r ∈ s'.log ∧ r ≤ s'.chunkRead := by
        intro hreading hlog j hj
        rcases Int.lt_or_eq_of_le hj with hlt | heq
        · exact hold (fun e he => hlog ▸ List.mem_cons_of_mem _ he) j (by omega)
        · refine ⟨s'.chunkRead, ?_, Int.le_refl _⟩
          rw [hlog, heq, hreading]
          exact List.mem_cons_self
      cases hm with
      | post => exact hnew rfl rfl
      | postAwaited => exact hnew rfl rfl
      | close => exact hold fun e he => List.mem_cons_of_mem _ he
      | give => exact hold fun e he => List.mem_cons_of_mem _ he
      | _ => exact hold fun e he => he
    · exact fun s _ e _ hP _ => hP
    · intro j hj
      exact absurd hj (show ¬ (j : ℤ) ≤ -1 by omega)

theorem run_spread (hg : l.CollisionsGuarded)
    (h : Run (Loader.next l.pageSize) (l.start (List.range n)) s) : Loader.Spread l s where
  window := l.run_window h
  device := by
    intro i j hij hj hcollide
    obtain ⟨r, hposted, hle⟩ := l.run_posted h j hj
    have hapart := l.inFlightApart_of_guarded hg n s h j r hposted i hij hcollide
    omega

end Load

namespace Loader.Spread

variable {l : Load} {s : Loader} (h : Spread l s) {c c' : ℕ} {chunk chunk' : Chunk}
include h

/-- Two chunks in flight do not overlap on the device. -/
theorem device_apart (hne : c ≠ c') (hc : s.chunkRead < c ∧ (c : ℤ) ≤ s.chunkReading)
    (hc' : s.chunkRead < c' ∧ (c' : ℤ) ≤ s.chunkReading) (hchunk : l.layout.chunks[c]? = some chunk)
    (hchunk' : l.layout.chunks[c']? = some chunk') {a : ℕ} (hlo : chunk.deviceBufferOffset ≤ a)
    (hhi : a < chunk.devStop l.geometry) :
    a < chunk'.deviceBufferOffset ∨ chunk'.devStop l.geometry ≤ a := by
  by_contra hin
  obtain ⟨hlo', hhi'⟩ := not_or.mp hin
  have hmeets := meets_iff.mpr ⟨a, hlo, hhi, not_lt.mp hlo', not_le.mp hhi'⟩
  have hmeets' := meets_iff.mpr ⟨a, not_lt.mp hlo', not_le.mp hhi', hlo, hhi⟩
  rcases Nat.lt_or_gt_of_ne hne with hlt | hgt
  · have := h.device c c' hlt hc'.2 ⟨chunk, chunk', hchunk, hchunk', hmeets⟩
    omega
  · have := h.device c' c hgt hc.2 ⟨chunk', chunk, hchunk', hchunk, hmeets'⟩
    omega

/-- Two chunks in flight have windows of their own. -/
theorem window_apart (hne : c ≠ c') (hc : s.chunkRead < c ∧ (c : ℤ) ≤ s.chunkReading)
    (hc' : s.chunkRead < c' ∧ (c' : ℤ) ≤ s.chunkReading) {a : ℕ} (hlo : l.windowStart c ≤ a)
    (hhi : a < l.windowStart c + l.geometry.rankChunkSize) :
    a < l.windowStart c' ∨ l.windowStart c' + l.geometry.rankChunkSize ≤ a := by
  have hwindow := h.window
  have hdepth : l.window ≤ l.args.ioDepth := min_le_right _ _
  have hmod : c % l.args.ioDepth ≠ c' % l.args.ioDepth := by
    rcases Nat.lt_or_gt_of_ne hne with hlt | hgt
    · exact mod_ne_of_near hlt (by omega)
    · exact (mod_ne_of_near hgt (by omega)).symm
  unfold Load.windowStart at *
  by_contra hin
  obtain ⟨hlo', hhi'⟩ := not_or.mp hin
  rw [← Nat.succ_mul] at hhi hhi'
  exact hmod ((Nat.div_eq_of_lt_le hlo hhi).symm.trans
    (Nat.div_eq_of_lt_le (not_lt.mp hlo') (not_le.mp hhi')))

/-- A read in flight cannot reach the bytes of another one. -/
theorem read_misses {α : Type} {file : ℕ → ℕ → α} {rd rd' : Read}
    (hr : l.args.rank < l.args.worldSize) (hrd : rd ∈ l.reads c) (hrd' : rd' ∈ l.reads c')
    (hne : rd ≠ rd') (hc : s.chunkRead < c ∧ (c : ℤ) ≤ s.chunkReading)
    (hc' : s.chunkRead < c' ∧ (c' : ℤ) ≤ s.chunkReading) {b : ℕ} (hb : b < rd.size) (result : ℤ) :
    (rd'.landed file result).Misses (rd.bufferOffset + b) := by
  by_cases hsame : c = c'
  · subst hsame
    exact Load.reads_apart hrd hrd' hne hb result
  by_cases hbackend : l.args.backend = Backend.CUFILE
  · obtain ⟨chunk, hchunk, hlo, hhi⟩ := Load.reads_inside_device hbackend hr hrd
    obtain ⟨chunk', hchunk', hinside⟩ := Load.reads_inside_device hbackend hr hrd'
    exact hinside.landed_misses (h.device_apart hsame hc hc' hchunk hchunk' (by omega) (by omega))
      result
  · obtain ⟨hlo, hhi⟩ := Load.reads_inside_window hbackend hrd
    exact (Load.reads_inside_window hbackend hrd').landed_misses
      (h.window_apart hsame hc hc' (by omega) (by omega)) result

end Loader.Spread

end InstantTensor
