/-
# `InstantTensor.Tiling` — the slices of a chunk, over all ranks

`post_read_chunk` gives rank `r` piece `r` of a chunk and the backend gives thread `i` piece
`i` of that, both out of the chunk padded to a whole world unit.  Counted through all ranks,
slice `(r, i)` is piece `r * num_threads + i` of the chunk cut into pieces of
`padded_thread_size` (`threadSize_eq_piece`), and from this one cut everything else follows:
the slices hold each byte once, those of a rank add up to its `rank_size`, whole pages of a
slice stay in its place, and the pieces the all-gather puts one behind the other are the
chunk (`SlicesTile.gathered`).  A read delivers what it asks for, which is its whole slice but for
slices of io_uring whose pages a length of 32 bits cannot count (`SlicesTile.asked`); the bytes that
are not asked for are left out of the last statement.

The sizes are differences of `size_t` in the source, which wrap around and come back as a
negative `ssize_t`; below `2^63` the clamped difference is the truncated one
(`clampSize_sizeDiff`).
-/
import InstantTensor.Lib.Memory
import InstantTensor.Lib.Pieces
import InstantTensor.Lib.Words
import InstantTensor.Sites
import InstantTensor.Slices

namespace InstantTensor

namespace ChunkIOParams

variable (p : ChunkIOParams)

/-- `rank_size` as `post_read_chunk` writes it. -/
def rankSizeWord : ℕ := min (clampSize (sizeDiff p.chunk.size p.rankOffset)) p.paddedRankSize

/-- `thread_size` as each of the four backends writes it. -/
def threadSizeWord (i : ℕ) : ℕ :=
  min (clampSize (sizeDiff (sizeDiff p.chunk.size p.rankOffset) (p.threadOffset i)))
    p.paddedThreadSize

end ChunkIOParams

/-! ## The ranks of a load -/

/-- What rank `r` opens its loader with. -/
def OpenArgs.atRank (args : OpenArgs) (r : ℕ) : OpenArgs := { args with rank := r }

/-- A chunk of the layout: not empty, no longer than `world_chunk_size`, and on a page, or
`finish_chunk` would have thrown. -/
structure Chunk.Postable (g : Geometry) (chunk : Chunk) : Prop where
  pos : 0 < chunk.size
  le : chunk.size ≤ g.worldChunkSize
  aligned : g.threadAlignment ∣ chunk.fileOffset

theorem Load.postable (l : Load) {chunk : Chunk} (hc : chunk ∈ l.layout.chunks) :
    chunk.Postable l.geometry := by
  rw [l.layout_eq] at hc
  obtain ⟨lap, hlap, s, hs, q, hq, rfl⟩ := (mem_settle_chunks l.wf).mp hc
  have hsound := (l.plan_sound lap hlap).segment s hs
  constructor
  · simp only [Segment.chunk]
    have hchunk := l.wf.chunk_pos
    omega
  · exact min_le_left _ _
  · refine Nat.dvd_add hsound.base_dvd (Nat.dvd_mul_left_of_dvd ?_ q)
    exact Nat.dvd_trans l.wf.thread_dvd l.wf.world_dvd

section
variable (pageSize : ℕ) (args : OpenArgs) (chunkId : ℤ) (chunk : Chunk)

/-- What rank `r` computes of the chunk. -/
def rankParams (r : ℕ) : ChunkIOParams :=
  chunkIOParams (initBuffer pageSize args) (args.atRank r) chunkId chunk

/-- Slice `i` of rank `r`. -/
def rankSlice (r i : ℕ) : Read :=
  slice (initBuffer pageSize args) (args.atRank r) (rankParams pageSize args chunkId chunk r) i

/-- The slice holds byte `x` of its file. -/
def Read.Holds (s : Read) (x : ℕ) : Prop := s.fileOffset ≤ x ∧ x < s.fileOffset + s.size

/-- The read asks for byte `x` of its file. -/
def Read.Asks (s : Read) (x : ℕ) : Prop := s.fileOffset ≤ x ∧ x < s.fileOffset + s.request

end

/-! ## What the threads, the copy and the all-gather write -/

/-- The two buffers of a rank. -/
structure RankMemory (α : Type) where
  host : ℕ → α
  device : ℕ → α

section
variable {α : Type}

/-- What a read leaves behind: the bytes of its slice that it asked for, and where it asked for more,
anything. -/
def Read.write (file : ℕ → ℕ → α) (s : Read) : Write α where
  addr := s.bufferOffset
  len := min s.size s.request
  padded := s.request
  data := fun b => file s.fileIndex (s.fileOffset + b)

/-- The reads of a rank complete in the order of the list; those of CUFILE write to the
device. -/
def RankMemory.complete (args : OpenArgs) (file : ℕ → ℕ → α) (junk : ℕ → ℕ → α) (order : List Read)
    (m : RankMemory α) : RankMemory α :=
  match args.backend with
  | Backend.CUFILE => { m with device := writeAll junk 0 (order.map (Read.write file)) m.device }
  | _ => { m with host := writeAll junk 0 (order.map (Read.write file)) m.host }

/-- The `cudaMemcpyAsync` of `cuda_func`, which CUFILE has no need of. -/
def RankMemory.copy (args : OpenArgs) (p : ChunkIOParams) (m : RankMemory α) : RankMemory α :=
  match args.backend with
  | Backend.CUFILE => m
  | _ => { m with
      device := fun a =>
        if p.rankDst ≤ a ∧ a < p.rankDst + p.rankSize then m.host (p.windowOffset + (a - p.rankDst))
        else m.device a }

/-- `ncclAllGather(rank_dst, all_dst, count)`: the `count` bytes of each rank, one rank behind
the other. -/
def allGather (worldSize allDst count : ℕ) (rankDst : ℕ → ℕ) (device : ℕ → ℕ → α) (m : ℕ → α) :
    ℕ → α := fun a =>
  if allDst ≤ a ∧ a < allDst + count * worldSize then
    device ((a - allDst) / count) (rankDst ((a - allDst) / count) + (a - allDst) % count)
  else m a

end

section
variable (pageSize : ℕ) (args : OpenArgs) (chunkId : ℤ) (chunk : Chunk) {α : Type}

/-- The device buffer of rank `r` behind the chunk: every rank reads and copies its piece,
and several ranks gather the pieces. -/
def chunkDevice (file : ℕ → ℕ → α) (junk : ℕ → ℕ → ℕ → α) (order : ℕ → List Read)
    (m : ℕ → RankMemory α) (r : ℕ) : ℕ → α :=
  let p := rankParams pageSize args chunkId chunk
  let device q := (((m q).complete args file (junk q) (order q)).copy args (p q)).device
  if 1 < args.worldSize then
    allGather args.worldSize (p r).allDst (p r).paddedRankSize (fun q => (p q).rankDst) device
      (device r)
  else device r

/-- **The rank and thread split of a chunk.** -/
structure SlicesTile : Prop where
  /-- The sizes written with `size_t` differences are the ones of the model. -/
  words : ∀ r < args.worldSize, ∀ i < args.numThreads,
    (rankParams pageSize args chunkId chunk r).rankSizeWord
        = (rankParams pageSize args chunkId chunk r).rankSize ∧
      (rankParams pageSize args chunkId chunk r).threadSizeWord i
        = (rankParams pageSize args chunkId chunk r).threadSize i
  cover : ∀ x, (∃ r < args.worldSize, ∃ i < args.numThreads,
      (rankSlice pageSize args chunkId chunk r i).Holds x) ↔
    chunk.fileOffset ≤ x ∧ x < chunk.fileOffset + chunk.size
  once : ∀ r r' i i' x, i < args.numThreads → i' < args.numThreads →
    (rankSlice pageSize args chunkId chunk r i).Holds x →
    (rankSlice pageSize args chunkId chunk r' i').Holds x → r = r' ∧ i = i'
  sum : ∀ r < args.worldSize,
    ((slices (initBuffer pageSize args) (args.atRank r)
      (rankParams pageSize args chunkId chunk r)).map Read.size).sum
      = (rankParams pageSize args chunkId chunk r).rankSize
  /-- The slices with bytes are those of the first threads, and what the backend goes through
  again by place is what it has set up. -/
  inFront : ∀ r, ∀ i < args.numThreads,
    0 < (rankParams pageSize args chunkId chunk r).threadSize i ↔
      i < (wanted (initBuffer pageSize args) (args.atRank r)
        (rankParams pageSize args chunkId chunk r)).length
  taken : ∀ r, firstWanted (initBuffer pageSize args) (args.atRank r)
      (rankParams pageSize args chunkId chunk r)
    = wanted (initBuffer pageSize args) (args.atRank r) (rankParams pageSize args chunkId chunk r)
  page : ∀ r i, (initBuffer pageSize args).threadAlignment ∣
    (rankSlice pageSize args chunkId chunk r i).fileOffset
  rounded : ∀ r i,
    roundUp ((rankParams pageSize args chunkId chunk r).threadSize i)
        (initBuffer pageSize args).threadAlignment
      ≤ (rankParams pageSize args chunkId chunk r).paddedThreadSize ∧
    (rankParams pageSize args chunkId chunk r).paddedThreadSize
      ≤ (initBuffer pageSize args).threadChunkSize
  window : args.backend ≠ Backend.CUFILE → ∀ r, ∀ i < args.numThreads,
    (rankParams pageSize args chunkId chunk r).windowOffset
        ≤ (rankSlice pageSize args chunkId chunk r i).bufferOffset ∧
      (rankSlice pageSize args chunkId chunk r i).bufferOffset
          + roundUp ((rankParams pageSize args chunkId chunk r).threadSize i)
            (initBuffer pageSize args).threadAlignment
        ≤ (rankParams pageSize args chunkId chunk r).windowOffset
          + (initBuffer pageSize args).rankChunkSize
  /-- A slice is asked for whole, by io_uring if its pages count in 32 bits. -/
  asked : ∀ r i, (args.backend = Backend.URING ∨ args.backend = Backend.URING_BUFFERED →
      roundUp ((rankParams pageSize args chunkId chunk r).threadSize i)
        (initBuffer pageSize args).threadAlignment < 2 ^ 32) →
    (rankSlice pageSize args chunkId chunk r i).size
      ≤ (rankSlice pageSize args chunkId chunk r i).request
  /-- Whatever the buffers held, in whatever order the reads complete, each rank has in its
  device buffer every byte of the chunk that was asked for. -/
  gathered : ∀ (α : Type) (file : ℕ → ℕ → α) (junk : ℕ → ℕ → ℕ → α) (order : ℕ → List Read)
    (m : ℕ → RankMemory α),
    (∀ r < args.worldSize, (order r).Perm (issued (initBuffer pageSize args) (args.atRank r)
      (rankParams pageSize args chunkId chunk r))) →
    ∀ r < args.worldSize, ∀ b < chunk.size,
      (∀ q < args.worldSize, ∀ i < args.numThreads,
        (rankSlice pageSize args chunkId chunk q i).Holds (chunk.fileOffset + b) →
          (rankSlice pageSize args chunkId chunk q i).Asks (chunk.fileOffset + b)) →
      chunkDevice pageSize args chunkId chunk file junk order m r (chunk.deviceBufferOffset + b)
        = file chunk.fileIndex (chunk.fileOffset + b)

end

/-! ## The padded sizes -/

/-- The padded sizes of a chunk: whole pages a thread, `num_threads` times that a rank, and
`world_size` times that holds the chunk. -/
structure Chunk.Padded (pageSize : ℕ) (args : OpenArgs) (chunk : Chunk) (thread rank : ℕ) : Prop where
  page : pageSize ∣ thread
  pos : 0 < thread
  rank_eq : rank = thread * args.numThreads
  holds : chunk.size ≤ rank * args.worldSize
  fits : rank * args.worldSize ≤ (initBuffer pageSize args).worldChunkSize
  thread_le : thread ≤ (initBuffer pageSize args).threadChunkSize

section
variable {pageSize : ℕ} {args : OpenArgs} {chunkId : ℤ} {chunk : Chunk}

theorem rankParams_padded (chunkId : ℤ) (hpage : 0 < pageSize) (hn : 0 < args.numThreads)
    (hw : 0 < args.worldSize) (hc : chunk.Postable (initBuffer pageSize args)) (r : ℕ) :
    chunk.Padded pageSize args (rankParams pageSize args chunkId chunk r).paddedThreadSize
      (rankParams pageSize args chunkId chunk r).paddedRankSize := by
  set g := initBuffer pageSize args with hg
  have hunit : g.worldChunkAlignment = pageSize * args.numThreads * args.worldSize := rfl
  have hworld : 0 < g.worldChunkAlignment := Nat.mul_pos (Nat.mul_pos hpage hn) hw
  have hchunk : g.worldChunkSize = g.threadChunkSize * args.numThreads * args.worldSize := rfl
  have hdvd : g.worldChunkAlignment ∣ g.worldChunkSize := by
    have hthread : pageSize ∣ g.threadChunkSize := by
      rw [hg, initBuffer_threadChunkSize hpage]
      exact dvd_roundUp _ _
    rw [hunit, hchunk]
    exact Nat.mul_dvd_mul_right (Nat.mul_dvd_mul_right hthread _) _
  obtain ⟨k, hk⟩ := dvd_roundUp chunk.size g.worldChunkAlignment
  have hpadded : roundUp chunk.size g.worldChunkAlignment
      = pageSize * k * args.numThreads * args.worldSize := by
    rw [hk, hunit]
    ring
  have hrank : (rankParams pageSize args chunkId chunk r).paddedRankSize
      = pageSize * k * args.numThreads := by
    change roundUp chunk.size g.worldChunkAlignment / args.worldSize = _
    rw [hpadded, Nat.mul_div_cancel _ hw]
  have hthread : (rankParams pageSize args chunkId chunk r).paddedThreadSize = pageSize * k := by
    change (rankParams pageSize args chunkId chunk r).paddedRankSize / args.numThreads = _
    rw [hrank, Nat.mul_div_cancel _ hn]
  have hle : roundUp chunk.size g.worldChunkAlignment ≤ g.worldChunkSize :=
    roundUp_le_of_dvd hworld hc.le hdvd
  rw [hthread, hrank]
  refine ⟨Nat.dvd_mul_right _ _, ?_, rfl, ?_, ?_, ?_⟩
  · refine Nat.pos_of_ne_zero fun hzero => ?_
    have hsize := le_roundUp hworld (x := chunk.size)
    rw [hpadded, hzero, Nat.zero_mul, Nat.zero_mul] at hsize
    exact absurd hc.pos (Nat.not_lt.mpr hsize)
  · exact hpadded ▸ le_roundUp hworld
  · exact hpadded ▸ hle
  · rw [hpadded, hchunk] at hle
    exact Nat.le_of_mul_le_mul_right (Nat.le_of_mul_le_mul_right hle hw) hn

theorem rankParams_offset {thread rank : ℕ} (h : chunk.Padded pageSize args thread rank) (r i : ℕ) :
    rank * r + thread * i = thread * (r * args.numThreads + i) := by
  rw [h.rank_eq]
  ring

/-! ## The slices by themselves -/

variable {r i : ℕ}

theorem map_size_slices (g : Geometry) (p : ChunkIOParams) :
    (slices g args p).map Read.size = (List.range args.numThreads).map p.threadSize := by
  rw [slices, List.map_map]
  rfl

/-- The slices with bytes are those of the first threads. -/
theorem threadSize_pos_iff (g : Geometry) (p : ChunkIOParams) (hi : i < args.numThreads) :
    0 < p.threadSize i ↔ i < (wanted g args p).length := by
  have htake : wanted g args p = (slices g args p).take (wanted g args p).length :=
    (firstWanted_eq g args p).symm
  have hslice : (slices g args p)[i]? = some (slice g args p i) := by
    rw [slices, List.getElem?_map, List.getElem?_range hi]
    rfl
  constructor
  · intro hpos
    obtain ⟨j, hj⟩ := List.mem_iff_getElem?.mp ((mem_wanted g args p).mpr ⟨i, hi, hpos, rfl⟩)
    have hlt := (List.getElem?_eq_some_iff.mp hj).1
    rw [htake, List.getElem?_take_of_lt hlt, slices, List.getElem?_map] at hj
    obtain ⟨j', hj', heq⟩ := Option.map_eq_some_iff.mp hj
    obtain ⟨hrange, rfl⟩ := List.getElem?_eq_some_iff.mp hj'
    have hji : j = i := by simpa [slice] using congrArg Read.thread heq
    exact hji ▸ hlt
  · intro hlt
    have hmem : slice g args p i ∈ wanted g args p := by
      rw [htake]
      exact List.mem_of_getElem? (by rw [List.getElem?_take_of_lt hlt, hslice])
    obtain ⟨j, -, hpos, heq⟩ := (mem_wanted g args p).mp hmem
    have hij : i = j := congrArg Read.thread heq
    exact hij ▸ hpos

theorem threadSize_le (p : ChunkIOParams) (i : ℕ) : p.threadSize i ≤ p.paddedThreadSize :=
  piece_le

/-- No slice is longer than the first one. -/
theorem threadSize_le_first (p : ChunkIOParams) (i : ℕ) :
    p.threadSize i ≤ min (p.chunk.size - p.rankOffset) p.paddedThreadSize :=
  min_le_min_right _ (Nat.sub_le _ _)

theorem roundUp_threadSize_le {p : ChunkIOParams} (hpage : 0 < pageSize)
    (hdvd : pageSize ∣ p.paddedThreadSize) (i : ℕ) :
    roundUp (p.threadSize i) pageSize ≤ p.paddedThreadSize :=
  roundUp_le_of_dvd hpage (threadSize_le p i) hdvd

/-- The place of a slice ends before that of the next one starts. -/
theorem threadOffset_add_le {p : ChunkIOParams} {j : ℕ} (hij : i < j) :
    p.threadOffset i + p.paddedThreadSize ≤ p.threadOffset j := by
  rw [ChunkIOParams.threadOffset, ← Nat.mul_succ]
  exact Nat.mul_le_mul_left _ hij

/-- The base of the slices in the buffer they are read to. -/
def ChunkIOParams.readBase (p : ChunkIOParams) (args : OpenArgs) : ℕ :=
  match args.backend with
  | Backend.CUFILE => p.chunk.deviceBufferOffset + p.rankOffset
  | _ => p.windowOffset

theorem slice_bufferOffset (g : Geometry) (p : ChunkIOParams) (i : ℕ) :
    (slice g args p i).bufferOffset = p.readBase args + p.threadOffset i := by
  unfold slice ChunkIOParams.readBase
  cases args.backend <;> rfl

theorem wanted_nodup (g : Geometry) (p : ChunkIOParams) : (wanted g args p).Nodup := by
  refine List.Pairwise.filter _ (List.pairwise_map.mpr (List.pairwise_lt_range.imp ?_))
  intro i j hij heq
  exact absurd (congrArg Read.thread heq) (Nat.ne_of_lt hij)

/-- No backend asks for more than the pages of a slice. -/
theorem requestSize_le {g : Geometry} (hg : 0 < g.threadAlignment) (args : OpenArgs) (n : ℕ) :
    requestSize g args n ≤ roundUp n g.threadAlignment := by
  unfold requestSize
  split
  case h_1 | h_2 => exact le_rfl
  case h_3 | h_4 => exact Nat.mod_le _ _
  case h_5 | h_6 => exact le_roundUp hg

theorem le_requestSize {g : Geometry} (hg : 0 < g.threadAlignment) {args : OpenArgs} {n : ℕ}
    (hcount : args.backend = Backend.URING ∨ args.backend = Backend.URING_BUFFERED →
      roundUp n g.threadAlignment < 2 ^ 32) : n ≤ requestSize g args n := by
  have hup : n ≤ roundUp n g.threadAlignment := le_roundUp hg
  unfold requestSize
  split
  case h_1 | h_2 => exact hup
  case h_3 hbackend => rwa [Nat.mod_eq_of_lt (hcount (.inl hbackend))]
  case h_4 hbackend => rwa [Nat.mod_eq_of_lt (hcount (.inr hbackend))]
  case h_5 | h_6 => exact le_rfl

/-- Reading slice `j` leaves the bytes of the other slices alone. -/
theorem slice_write_misses {α : Type} {g : Geometry} {p : ChunkIOParams} {file : ℕ → ℕ → α}
    (hg : 0 < g.threadAlignment)
    (hround : ∀ k, roundUp (p.threadSize k) g.threadAlignment ≤ p.paddedThreadSize) {j b : ℕ}
    (hne : i ≠ j) (hlo : p.threadOffset i ≤ b) (hhi : b < p.threadOffset i + p.threadSize i) :
    (Read.write file (slice g args p j)).Misses (p.readBase args + b) := by
  have hrequest : (slice g args p j).request ≤ p.paddedThreadSize :=
    (requestSize_le hg args _).trans (hround j)
  simp only [Write.Misses, Read.write, slice_bufferOffset]
  have hi := threadSize_le p i
  rcases Nat.lt_or_gt_of_ne hne with hij | hji
  · have hnext := threadOffset_add_le (p := p) hij
    omega
  · have hnext := threadOffset_add_le (p := p) hji
    omega

theorem mul_add_inj {n r r' i i' : ℕ} (hi : i < n) (hi' : i' < n) (h : r * n + i = r' * n + i') :
    r = r' ∧ i = i' := by
  have hdiv : ∀ {q j : ℕ}, j < n → (q * n + j) / n = q := by
    intro q j hj
    rw [Nat.mul_comm, Nat.mul_add_div (by omega), Nat.div_eq_of_lt hj, Nat.add_zero]
  have hr : r = r' := by
    have hq := hdiv (q := r) hi
    rw [h, hdiv hi'] at hq
    exact hq.symm
  subst hr
  exact ⟨rfl, Nat.add_left_cancel h⟩

/-! ## One cut through all ranks -/

section
variable (h : chunk.Padded pageSize args (rankParams pageSize args chunkId chunk r).paddedThreadSize
  (rankParams pageSize args chunkId chunk r).paddedRankSize)
include h

/-- Slice `(r, i)` is piece `r * num_threads + i` of the chunk. -/
theorem threadSize_eq_piece :
    (rankParams pageSize args chunkId chunk r).threadSize i
      = piece chunk.size (rankParams pageSize args chunkId chunk r).paddedThreadSize
          (r * args.numThreads + i) := by
  rw [piece, ← rankParams_offset h, ← Nat.sub_sub]
  rfl

theorem rankSlice_fileOffset :
    (rankSlice pageSize args chunkId chunk r i).fileOffset
      = chunk.fileOffset + (rankParams pageSize args chunkId chunk r).paddedThreadSize
          * (r * args.numThreads + i) := by
  rw [← rankParams_offset h, ← Nat.add_assoc]
  rfl

/-- The slice that holds a byte is found by division. -/
theorem rankSlice_holds_iff {x : ℕ} :
    (rankSlice pageSize args chunkId chunk r i).Holds x ↔
      chunk.fileOffset ≤ x ∧ x - chunk.fileOffset < chunk.size ∧
        (x - chunk.fileOffset) / (rankParams pageSize args chunkId chunk r).paddedThreadSize
          = r * args.numThreads + i := by
  have hsize : (rankSlice pageSize args chunkId chunk r i).size
      = piece chunk.size (rankParams pageSize args chunkId chunk r).paddedThreadSize
          (r * args.numThreads + i) := threadSize_eq_piece h
  have hpiece := mem_piece_iff chunk.size (c := x - chunk.fileOffset)
    (i := r * args.numThreads + i) h.pos
  rw [Read.Holds, rankSlice_fileOffset h, hsize]
  omega

/-- A rank's slices add up to its piece. -/
theorem sum_slices :
    ((List.range args.numThreads).map (rankParams pageSize args chunkId chunk r).threadSize).sum
      = (rankParams pageSize args chunkId chunk r).rankSize := by
  set p := rankParams pageSize args chunkId chunk r
  have hpiece : p.threadSize = piece (p.chunk.size - p.rankOffset) p.paddedThreadSize := rfl
  rw [hpiece, sum_piece, ← h.rank_eq]
  rfl

theorem threadOffset_add_le_rank (hi : i < args.numThreads) :
    (rankParams pageSize args chunkId chunk r).threadOffset i
        + (rankParams pageSize args chunkId chunk r).paddedThreadSize
      ≤ (rankParams pageSize args chunkId chunk r).paddedRankSize :=
  Nat.le_trans (threadOffset_add_le hi) (Nat.le_of_eq h.rank_eq.symm)

/-- In whatever order the reads of a rank complete, behind them its piece is in place, where it was
asked for. -/
theorem writeAll_reads {α : Type} (file junk : ℕ → ℕ → α) (hpage : 0 < pageSize)
    {order : List Read} (horder : order.Perm (wanted (initBuffer pageSize args) (args.atRank r)
      (rankParams pageSize args chunkId chunk r))) {m : ℕ → α} {b : ℕ}
    (hb : b < (rankParams pageSize args chunkId chunk r).rankSize)
    (hasks : ∀ i < args.numThreads, (rankSlice pageSize args chunkId chunk r i).Holds
        (chunk.fileOffset + (rankParams pageSize args chunkId chunk r).rankOffset + b) →
      (rankSlice pageSize args chunkId chunk r i).Asks
        (chunk.fileOffset + (rankParams pageSize args chunkId chunk r).rankOffset + b)) :
    writeAll junk 0 (order.map (Read.write file)) m
        ((rankParams pageSize args chunkId chunk r).readBase (args.atRank r) + b)
      = file chunk.fileIndex
          (chunk.fileOffset + (rankParams pageSize args chunkId chunk r).rankOffset + b) := by
  set g := initBuffer pageSize args
  set p := rankParams pageSize args chunkId chunk r with hp
  have hsize : b < min (p.chunk.size - p.rankOffset) p.paddedRankSize := hb
  -- byte `b` is in slice `i`
  set i := b / p.paddedThreadSize with hi
  have hin : i < args.numThreads :=
    Nat.div_lt_of_lt_mul (h.rank_eq ▸ Nat.lt_of_lt_of_le hsize (min_le_right _ _))
  obtain ⟨hlo, hhi⟩ := (mem_piece_iff _ h.pos).mpr
    ⟨Nat.lt_of_lt_of_le hsize (min_le_left _ _), hi.symm⟩
  change p.threadOffset i ≤ b at hlo
  change b < p.threadOffset i + p.threadSize i at hhi
  have hasked : b < p.threadOffset i + (slice g (args.atRank r) p i).request := by
    have hholds : (rankSlice pageSize args chunkId chunk r i).Holds
        (chunk.fileOffset + p.rankOffset + b) := by
      change chunk.fileOffset + p.rankOffset + p.threadOffset i ≤ _ ∧
        _ < chunk.fileOffset + p.rankOffset + p.threadOffset i + p.threadSize i
      omega
    have hrange := (hasks i hin hholds).2
    change chunk.fileOffset + p.rankOffset + b < chunk.fileOffset + p.rankOffset + p.threadOffset i
      + (slice g (args.atRank r) p i).request at hrange
    omega
  have hwanted : slice g (args.atRank r) p i ∈ wanted g (args.atRank r) p :=
    (mem_wanted _ _ _).mpr ⟨i, hin, by omega, rfl⟩
  obtain ⟨before, after, rfl⟩ := List.append_of_mem (horder.mem_iff.mpr hwanted)
  have hmiss : ∀ w ∈ after.map (Read.write file), w.Misses (p.readBase (args.atRank r) + b) := by
    intro w hw
    obtain ⟨s, hs, rfl⟩ := List.mem_map.mp hw
    obtain ⟨j, hj, -, rfl⟩ := (mem_wanted _ _ _).mp
      (horder.subset (List.mem_append_right _ (List.mem_cons_of_mem _ hs)))
    have hne : i ≠ j := by
      intro heq
      have hnodup := horder.nodup_iff.mpr (wanted_nodup g p)
      exact (List.nodup_cons.mp (List.nodup_append.mp hnodup).2.1).1 (heq ▸ hs)
    exact slice_write_misses hpage (roundUp_threadSize_le hpage h.page) hne hlo hhi
  have haddr : p.readBase (args.atRank r) + b
      = (Read.write file (slice g (args.atRank r) p i)).addr + (b - p.threadOffset i) := by
    simp only [Read.write, slice_bufferOffset]
    omega
  rw [haddr, List.map_append, List.map_cons, writeAll_of_last ?_ (haddr ▸ hmiss)]
  · change file chunk.fileIndex
      (chunk.fileOffset + p.rankOffset + p.threadOffset i + (b - p.threadOffset i)) = _
    congr 1
    omega
  · change b - p.threadOffset i < min (p.threadSize i) (slice g (args.atRank r) p i).request
    omega

/-- Behind the copy the rank's piece is in its device buffer. -/
theorem copy_complete {α : Type} (file junk : ℕ → ℕ → α) (hpage : 0 < pageSize)
    {order : List Read} (horder : order.Perm (wanted (initBuffer pageSize args) (args.atRank r)
      (rankParams pageSize args chunkId chunk r))) {m : RankMemory α} {b : ℕ}
    (hb : b < (rankParams pageSize args chunkId chunk r).rankSize)
    (hasks : ∀ i < args.numThreads, (rankSlice pageSize args chunkId chunk r i).Holds
        (chunk.fileOffset + (rankParams pageSize args chunkId chunk r).rankOffset + b) →
      (rankSlice pageSize args chunkId chunk r i).Asks
        (chunk.fileOffset + (rankParams pageSize args chunkId chunk r).rankOffset + b)) :
    ((m.complete args file junk order).copy args
        (rankParams pageSize args chunkId chunk r)).device
        ((rankParams pageSize args chunkId chunk r).rankDst + b)
      = file chunk.fileIndex
          (chunk.fileOffset + (rankParams pageSize args chunkId chunk r).rankOffset + b) := by
  set p := rankParams pageSize args chunkId chunk r with hp
  have hread : ∀ m : ℕ → α, _ := fun m => writeAll_reads h file junk (m := m)
    hpage horder hb hasks
  have hbase : p.readBase (args.atRank r)
      = match args.backend with
        | Backend.CUFILE => p.rankDst
        | _ => p.windowOffset := rfl
  rw [← hp, hbase] at hread
  unfold RankMemory.copy RankMemory.complete
  cases hbackend : args.backend <;> simp only [hbackend] at hread ⊢
  case CUFILE => exact hread m.device
  all_goals
    rw [if_pos ⟨Nat.le_add_right _ _, Nat.add_lt_add_left hb _⟩, Nat.add_sub_cancel_left]
    exact hread m.host

/-- No difference the source forms wraps past zero and back. -/
theorem words_eq (hc : chunk.Postable (initBuffer pageSize args))
    (hsize : (initBuffer pageSize args).worldChunkSize < 2 ^ 63) (hr : r < args.worldSize)
    (hi : i < args.numThreads) :
    (rankParams pageSize args chunkId chunk r).rankSizeWord
        = (rankParams pageSize args chunkId chunk r).rankSize ∧
      (rankParams pageSize args chunkId chunk r).threadSizeWord i
        = (rankParams pageSize args chunkId chunk r).threadSize i := by
  set p := rankParams pageSize args chunkId chunk r with hp
  have hchunk : p.chunk.size < 2 ^ 63 := Nat.lt_of_le_of_lt hc.le hsize
  have hend : p.rankOffset + p.threadOffset i ≤ 2 ^ 63 := by
    have hthread : p.threadOffset i + p.paddedThreadSize ≤ p.paddedRankSize :=
      threadOffset_add_le_rank h hi
    have hrank := Nat.mul_le_mul_left p.paddedRankSize hr
    have hoffset : p.rankOffset = p.paddedRankSize * r := rfl
    have hfits := h.fits
    rw [Nat.mul_succ] at hrank
    omega
  constructor
  · rw [ChunkIOParams.rankSizeWord, clampSize_sizeDiff hchunk (by omega)]
    rfl
  · rw [ChunkIOParams.threadSizeWord, sizeDiff_sizeDiff, clampSize_sizeDiff hchunk hend,
      ← Nat.sub_sub]
    rfl

/-- Whole pages of a slice stay in the window of its chunk. -/
theorem slice_in_window (hpage : 0 < pageSize) (hbackend : args.backend ≠ Backend.CUFILE)
    (hi : i < args.numThreads) :
    (rankParams pageSize args chunkId chunk r).windowOffset
        ≤ (rankSlice pageSize args chunkId chunk r i).bufferOffset ∧
      (rankSlice pageSize args chunkId chunk r i).bufferOffset
          + roundUp ((rankParams pageSize args chunkId chunk r).threadSize i)
            (initBuffer pageSize args).threadAlignment
        ≤ (rankParams pageSize args chunkId chunk r).windowOffset
          + (initBuffer pageSize args).rankChunkSize := by
  set g := initBuffer pageSize args
  set p := rankParams pageSize args chunkId chunk r
  have hbase : p.readBase (args.atRank r) = p.windowOffset := by
    unfold ChunkIOParams.readBase OpenArgs.atRank
    cases hb : args.backend <;> first | rfl | exact absurd hb hbackend
  have hbuffer : (rankSlice pageSize args chunkId chunk r i).bufferOffset
      = p.windowOffset + p.threadOffset i := hbase ▸ slice_bufferOffset g p i
  have hround : roundUp (p.threadSize i) g.threadAlignment ≤ p.paddedThreadSize :=
    roundUp_threadSize_le hpage h.page i
  have hthread : p.threadOffset i + p.paddedThreadSize ≤ p.paddedRankSize :=
    threadOffset_add_le_rank h hi
  have hrank : p.paddedRankSize ≤ g.rankChunkSize := by
    rw [h.rank_eq]
    exact Nat.mul_le_mul_right args.numThreads h.thread_le
  rw [hbuffer]
  omega

end

/-! ## The split of a chunk -/

/-- Byte `b` of the chunk is byte `b % padded_rank_size` of rank `b / padded_rank_size`. -/
theorem mod_lt_rankSize {b : ℕ} (hb : b < chunk.size)
    (hpos : 0 < (rankParams pageSize args chunkId chunk r).paddedRankSize)
    (hr : b / (rankParams pageSize args chunkId chunk r).paddedRankSize = r) :
    b % (rankParams pageSize args chunkId chunk r).paddedRankSize
        < (rankParams pageSize args chunkId chunk r).rankSize ∧
      (rankParams pageSize args chunkId chunk r).rankOffset
        + b % (rankParams pageSize args chunkId chunk r).paddedRankSize = b := by
  set p := rankParams pageSize args chunkId chunk r
  have hoffset : p.rankOffset = p.paddedRankSize * r := rfl
  have hsize : p.rankSize = min (chunk.size - p.rankOffset) p.paddedRankSize := rfl
  have hmod := Nat.mod_lt b hpos
  have hdiv := Nat.div_add_mod b p.paddedRankSize
  rw [hr] at hdiv
  omega

/-- A byte of the chunk is in the slice its page-aligned place divides to. -/
theorem slices_cover (hn : 0 < args.numThreads)
    (h : ∀ r, chunk.Padded pageSize args (rankParams pageSize args chunkId chunk r).paddedThreadSize
      (rankParams pageSize args chunkId chunk r).paddedRankSize) (x : ℕ) :
    (∃ r < args.worldSize, ∃ i < args.numThreads,
        (rankSlice pageSize args chunkId chunk r i).Holds x) ↔
      chunk.fileOffset ≤ x ∧ x < chunk.fileOffset + chunk.size := by
  constructor
  · rintro ⟨r, -, i, -, hx⟩
    obtain ⟨hlo, hhi, -⟩ := (rankSlice_holds_iff (h r)).mp hx
    omega
  · rintro ⟨hlo, hhi⟩
    set j := (x - chunk.fileOffset) / (rankParams pageSize args chunkId chunk 0).paddedThreadSize
      with hj
    have hlt : j < args.numThreads * args.worldSize := by
      refine Nat.div_lt_of_lt_mul ?_
      have hholds := (h 0).holds
      rw [(h 0).rank_eq, Nat.mul_assoc] at hholds
      omega
    refine ⟨j / args.numThreads, Nat.div_lt_of_lt_mul hlt, j % args.numThreads,
      Nat.mod_lt _ hn, (rankSlice_holds_iff (h _)).mpr ⟨hlo, by omega, ?_⟩⟩
    rw [Nat.mul_comm, Nat.div_add_mod]
    exact hj.symm

/-- The copies and the all-gather put every byte of the chunk in its place. -/
theorem chunkDevice_eq {α : Type} (hpage : 0 < pageSize) (hn : 0 < args.numThreads)
    (h : ∀ r, chunk.Padded pageSize args (rankParams pageSize args chunkId chunk r).paddedThreadSize
      (rankParams pageSize args chunkId chunk r).paddedRankSize)
    {file : ℕ → ℕ → α} {junk : ℕ → ℕ → ℕ → α} {order : ℕ → List Read} {m : ℕ → RankMemory α}
    (horder : ∀ r < args.worldSize, (order r).Perm (issued (initBuffer pageSize args)
      (args.atRank r) (rankParams pageSize args chunkId chunk r)))
    (hr : r < args.worldSize) {b : ℕ} (hb : b < chunk.size)
    (hasks : ∀ q < args.worldSize, ∀ i < args.numThreads,
      (rankSlice pageSize args chunkId chunk q i).Holds (chunk.fileOffset + b) →
        (rankSlice pageSize args chunkId chunk q i).Asks (chunk.fileOffset + b)) :
    chunkDevice pageSize args chunkId chunk file junk order m r (chunk.deviceBufferOffset + b)
      = file chunk.fileIndex (chunk.fileOffset + b) := by
  set p := rankParams pageSize args chunkId chunk r with hp
  have hpos : 0 < p.paddedRankSize := (h r).rank_eq ▸ Nat.mul_pos (h r).pos hn
  have hworld : b < p.paddedRankSize * args.worldSize := Nat.lt_of_lt_of_le hb (h r).holds
  -- the rank that reads byte `b`
  set q := b / p.paddedRankSize with hq
  have hqw : q < args.worldSize := Nat.div_lt_of_lt_mul hworld
  obtain ⟨hlt, hsplit⟩ := @mod_lt_rankSize pageSize args chunkId chunk q b hb hpos hq.symm
  have hplace : chunk.fileOffset + (rankParams pageSize args chunkId chunk q).rankOffset
      + b % (rankParams pageSize args chunkId chunk q).paddedRankSize = chunk.fileOffset + b := by
    rw [Nat.add_assoc, hsplit]
  have hpiece := copy_complete (h q) file (junk q) (m := m q) hpage
    (issued_eq (initBuffer pageSize args) (args.atRank q) _ ▸ horder q hqw) hlt
    (by rw [hplace]; exact hasks q hqw)
  rw [hplace] at hpiece
  unfold chunkDevice
  split
  · change allGather args.worldSize chunk.deviceBufferOffset p.paddedRankSize _ _ _ _ = _
    rw [allGather, if_pos ⟨Nat.le_add_right _ _, Nat.add_lt_add_left hworld _⟩,
      Nat.add_sub_cancel_left]
    exact hpiece
  · have hworld : args.worldSize = 1 := by omega
    rw [hworld, Nat.lt_one_iff] at hqw hr
    have hdst : (rankParams pageSize args chunkId chunk q).rankDst
        = chunk.deviceBufferOffset + (rankParams pageSize args chunkId chunk q).rankOffset := rfl
    rw [hdst, Nat.add_assoc, hsplit, hqw, ← hr] at hpiece
    exact hpiece

end

/-- **The slices of a chunk tile it, and the ranks gather it.** -/
theorem slices_tile {pageSize : ℕ} {args : OpenArgs} {chunk : Chunk} (chunkId : ℤ)
    (hpage : 0 < pageSize) (hn : 0 < args.numThreads) (hw : 0 < args.worldSize)
    (hc : chunk.Postable (initBuffer pageSize args))
    -- the device buffer, which is larger, has been allocated
    (hsize : (initBuffer pageSize args).worldChunkSize < 2 ^ 63) :
    SlicesTile pageSize args chunkId chunk := by
  have hpad := rankParams_padded chunkId hpage hn hw hc
  constructor
  case words => exact fun r hr i hi => words_eq (hpad r) hc hsize hr hi
  case cover => exact slices_cover hn hpad
  case once =>
    intro r r' i i' x hi hi' hx hx'
    obtain ⟨-, -, h⟩ := (rankSlice_holds_iff (hpad r)).mp hx
    obtain ⟨-, -, h'⟩ := (rankSlice_holds_iff (hpad r')).mp hx'
    exact mul_add_inj hi hi' (h.symm.trans h')
  case sum =>
    intro r hr
    rw [map_size_slices]
    exact sum_slices (hpad r)
  case inFront => exact fun r i hi => threadSize_pos_iff _ _ hi
  case taken => exact fun r => firstWanted_eq _ _ _
  case page =>
    intro r i
    rw [rankSlice_fileOffset (hpad r)]
    exact Nat.dvd_add hc.aligned (Nat.dvd_mul_right_of_dvd (hpad r).page _)
  case rounded => exact fun r i => ⟨roundUp_threadSize_le hpage (hpad r).page i, (hpad r).thread_le⟩
  case window => exact fun hbackend r i hi => slice_in_window (hpad r) hpage hbackend hi
  case asked => exact fun r i hcount => le_requestSize hpage hcount
  case gathered =>
    intro α file junk order m horder r hr b hb hasks
    exact chunkDevice_eq hpage hn hpad horder hr hb hasks

/-- Three ranks of two threads; the second rank's last slice and the third rank are empty. -/
theorem slices_tile_threeRanks :
    SlicesTile 4096
      { rank := 0, worldSize := 3, bufferSize := 0, chunkSize := 8192, numThreads := 2,
        ioDepth := 2, backend := Backend.AIO, tensorOffsets := [] } 5
      { size := 12000, fileIndex := 0, fileOffset := 4096, deviceBufferOffset := 16 } :=
  slices_tile 5 (by decide) (by decide) (by decide) ⟨by decide, by decide, by decide⟩ (by decide)

end InstantTensor
