/-
# `InstantTensor.Uring` — the submission entries of io_uring

`post_read_chunk_uring` queues one entry for each slice with bytes.  An entry has a length
of 32 bits, so a slice of whole pages is asked for as it is exactly if it is shorter than
4 GiB, and since the first slice of a rank is its longest, the entries of a chunk ask for
what they should exactly if that one is (`uring_reads_iff`).  AIO passes the same size as
a `size_t`.

The host buffer is registered in pieces of 1 GiB, and an entry names a piece if the first
and the last byte of its slice divide to the same one; what is between them is then in that
piece too (`fixed_in_iovec`).
-/
import InstantTensor.Tiling

namespace InstantTensor

/-- `IO_URING_REGISTER_BUFFER_SIZE`. -/
def ioUringRegisterBufferSize : ℕ := 2 ^ 30

/-! ## The host buffer -/

structure HostBuffer where
  ptr : ℕ
  size : ℕ
deriving DecidableEq, Repr

/-- `HostBufferCache::get`: the first cached buffer that is large enough leaves the cache. -/
def cacheGet (size : ℕ) : List HostBuffer → Option HostBuffer × List HostBuffer
  | [] => (none, [])
  | entry :: entries =>
      if size ≤ entry.size then (some entry, entries)
      else ((cacheGet size entries).1, entry :: (cacheGet size entries).2)

/-- `host_buffer_entry`: a cached buffer, or a new one at `allocated`. -/
def hostBufferEntry (g : Geometry) (args : OpenArgs) (cached : List HostBuffer) (allocated : ℕ) :
    HostBuffer :=
  (cacheGet (args.ioDepth * g.rankChunkSize) cached).1.getD
    { ptr := allocated, size := args.ioDepth * g.rankChunkSize }

/-! ## The registered buffer -/

structure Iovec where
  base : ℕ
  len : ℕ
deriving DecidableEq, Repr

/-- The `while` of `register_host_buffer_uring`. -/
def hostIovecs (ptr size : ℕ) : List Iovec :=
  if _h : 0 < size then
    { base := ptr, len := min size ioUringRegisterBufferSize } ::
      hostIovecs (ptr + min size ioUringRegisterBufferSize)
        (size - min size ioUringRegisterBufferSize)
  else []
termination_by size
decreasing_by
  unfold ioUringRegisterBufferSize
  omega

/-- `register_host_buffer_uring`: `register` is the result of `io_uring_register_buffers`, and
below zero it throws. -/
def registerHostBuffer (register : List Iovec → ℤ) (ptr size : ℕ) : Option (List Iovec) :=
  if register (hostIovecs ptr size) < 0 then none else some (hostIovecs ptr size)

/-! ## The entries -/

structure UringReadOp where
  buf : ℕ
  size : ℕ
  fileOffset : ℕ
deriving DecidableEq, Repr

/-- What `io_uring_prep_read` and `io_uring_prep_read_fixed` leave in an entry: a length of 32
bits and a buffer index of 16. -/
structure Sqe where
  fileIndex : ℕ
  addr : ℕ
  len : ℕ
  off : ℕ
  bufIndex : Option ℕ
deriving DecidableEq, Repr

section
variable (g : Geometry) (args : OpenArgs) (ptr : ℕ) (p : ChunkIOParams)

/-- `ops`; a slice without bytes is passed over. -/
def uringOps : List UringReadOp :=
  (wanted g args p).map fun r => {
    buf := ptr + r.bufferOffset
    size := roundUp r.size g.threadAlignment
    fileOffset := r.fileOffset }

/-- `buffer_index`, with `uring_register_buffer` set. -/
def bufferIndex (op : UringReadOp) : ℤ :=
  let leftBufferIndex := (op.buf - ptr) / ioUringRegisterBufferSize
  let rightBufferIndex := (op.buf + op.size - 1 - ptr) / ioUringRegisterBufferSize
  if leftBufferIndex = rightBufferIndex then toInt leftBufferIndex else -1

def prepareRead (op : UringReadOp) : Sqe where
  fileIndex := p.chunk.fileIndex
  addr := op.buf
  len := op.size % 2 ^ 32
  off := op.fileOffset
  bufIndex := if bufferIndex ptr op ≠ -1 then some ((bufferIndex ptr op).toNat % 2 ^ 16) else none

/-- The entries `post_read_chunk_uring` queues; with no free entry it throws. -/
def uringSqes : List Sqe := (uringOps g args ptr p).map (prepareRead ptr p)

/-- **The reads are the slices asked for.** -/
structure UringReads (iovs : List Iovec) : Prop where
  /-- File range and place of each entry are those of its slice, in whole pages. -/
  ranges : (uringSqes g args ptr p).map (fun e => (e.fileIndex, e.off, e.len, e.addr))
    = (wanted g args p).map fun r =>
        (r.fileIndex, r.fileOffset, roundUp r.size g.threadAlignment, ptr + r.bufferOffset)
  window : ∀ e ∈ uringSqes g args ptr p,
    ptr + p.windowOffset ≤ e.addr ∧ e.addr + e.len ≤ ptr + p.windowOffset + g.rankChunkSize
  fixed : ∀ e ∈ uringSqes g args ptr p, ∀ i, e.bufIndex = some i →
    ∃ iov, iovs[i]? = some iov ∧ iov.base ≤ e.addr ∧ e.addr + e.len ≤ iov.base + iov.len

end

/-! ## Host buffer and pieces -/

theorem size_le_of_cacheGet {size : ℕ} {cached : List HostBuffer} {entry : HostBuffer}
    (h : (cacheGet size cached).1 = some entry) : size ≤ entry.size := by
  induction cached with
  | nil => simp [cacheGet] at h
  | cons head entries ih =>
      rw [cacheGet] at h
      split at h
      · next hle => exact Option.some.inj h ▸ hle
      · exact ih h

theorem le_hostBufferEntry (g : Geometry) (args : OpenArgs) (cached : List HostBuffer)
    (allocated : ℕ) :
    args.ioDepth * g.rankChunkSize ≤ (hostBufferEntry g args cached allocated).size := by
  unfold hostBufferEntry
  cases hget : (cacheGet (args.ioDepth * g.rankChunkSize) cached).1 with
  | none => exact Nat.le_refl _
  | some entry => exact size_le_of_cacheGet hget

theorem hostIovecs_getElem? {ptr size i : ℕ} (h : ioUringRegisterBufferSize * i < size) :
    (hostIovecs ptr size)[i]? = some {
      base := ptr + ioUringRegisterBufferSize * i
      len := piece size ioUringRegisterBufferSize i } := by
  induction i generalizing ptr size with
  | zero =>
      rw [hostIovecs, dif_pos (by omega), List.getElem?_cons_zero]
      simp [piece]
  | succ i ih =>
      have hsize : ioUringRegisterBufferSize ≤ size := by
        rw [Nat.mul_succ] at h
        omega
      rw [hostIovecs, dif_pos (by omega), List.getElem?_cons_succ, Nat.min_eq_right hsize,
        ih (by rw [Nat.mul_succ] at h; omega)]
      simp only [piece, Nat.mul_succ, Option.some.injEq, Iovec.mk.injEq]
      omega

/-- A range whose first and last bytes divide to the same piece lies in it. -/
theorem fixed_in_iovec {ptr size off len i : ℕ} (hlen : 0 < len) (hfit : off + len ≤ size)
    (hleft : off / ioUringRegisterBufferSize = i)
    (hright : (off + len - 1) / ioUringRegisterBufferSize = i) :
    ∃ iov, (hostIovecs ptr size)[i]? = some iov ∧ iov.base ≤ ptr + off ∧
      ptr + off + len ≤ iov.base + iov.len := by
  have hpos : 0 < ioUringRegisterBufferSize := by decide
  obtain ⟨hlo, -⟩ := (mem_piece_iff size hpos).mpr ⟨by omega, hleft⟩
  obtain ⟨-, hhi⟩ := (mem_piece_iff size hpos).mpr
    ⟨(by omega : off + len - 1 < size), hright⟩
  refine ⟨_, hostIovecs_getElem? (by omega), ?_, ?_⟩
  · exact Nat.add_le_add_left hlo ptr
  · simp only
    omega

/-! ## The entries of a chunk -/

section
variable {pageSize : ℕ} {args : OpenArgs} {chunkId : ℤ} {chunk : Chunk} {ptr : ℕ}

theorem mem_uringSqes {g : Geometry} {p : ChunkIOParams} {e : Sqe} :
    e ∈ uringSqes g args ptr p ↔ ∃ r ∈ wanted g args p, e = prepareRead ptr p {
      buf := ptr + r.bufferOffset
      size := roundUp r.size g.threadAlignment
      fileOffset := r.fileOffset } := by
  simp only [uringSqes, uringOps, List.map_map, List.mem_map, Function.comp_apply, eq_comm]

/-- The entries ask for their slices if no length is cut off. -/
theorem ranges_iff (ptr : ℕ) {g : Geometry} {p : ChunkIOParams} :
    (uringSqes g args ptr p).map (fun e => (e.fileIndex, e.off, e.len, e.addr))
        = (wanted g args p).map (fun r =>
            (r.fileIndex, r.fileOffset, roundUp r.size g.threadAlignment, ptr + r.bufferOffset)) ↔
      ∀ i < args.numThreads, 0 < p.threadSize i →
        roundUp (p.threadSize i) g.threadAlignment < 2 ^ 32 := by
  simp only [uringSqes, uringOps, List.map_map, List.map_inj_left, Function.comp_apply,
    prepareRead, Prod.mk.injEq, mem_wanted]
  constructor
  · intro h i hi hpos
    obtain ⟨-, -, hlen, -⟩ := h (slice g args p i) ⟨i, hi, hpos, rfl⟩
    exact hlen ▸ Nat.mod_lt _ (by decide)
  · rintro h _ ⟨i, hi, hpos, rfl⟩
    exact ⟨rfl, trivial, Nat.mod_eq_of_lt (h i hi hpos), trivial⟩

theorem threadSize_antitone {p : ChunkIOParams} {i j : ℕ} (hij : i ≤ j) :
    p.threadSize j ≤ p.threadSize i :=
  piece_le_piece hij

/-- The longest slice is the first one. -/
theorem all_threadSize_lt_iff {p : ChunkIOParams} (hpage : 0 < pageSize)
    (hn : 0 < args.numThreads) :
    (∀ i < args.numThreads, 0 < p.threadSize i → roundUp (p.threadSize i) pageSize < 2 ^ 32) ↔
      roundUp (p.threadSize 0) pageSize < 2 ^ 32 := by
  constructor
  · intro h
    rcases Nat.eq_zero_or_pos (p.threadSize 0) with hzero | hpos
    · rw [hzero, roundUp_zero hpage]
      decide
    · exact h 0 hn hpos
  · intro h i _ _
    exact Nat.lt_of_le_of_lt (roundUp_mono (threadSize_antitone (Nat.zero_le i)) _) h

/-- A slice to read stays, in whole pages, in the window of its chunk, and the window in what
`init_buffer` asks of the host buffer. -/
theorem wanted_in_window (hpage : 0 < pageSize) (ha : args.Admitted)
    (hbackend : args.backend ≠ Backend.CUFILE) (hc : chunk.Postable (initBuffer pageSize args))
    {r : Read} (hr : r ∈ wanted (initBuffer pageSize args) args
      (chunkIOParams (initBuffer pageSize args) args chunkId chunk)) :
    (chunkIOParams (initBuffer pageSize args) args chunkId chunk).windowOffset ≤ r.bufferOffset ∧
      r.bufferOffset + roundUp r.size pageSize
        ≤ (chunkIOParams (initBuffer pageSize args) args chunkId chunk).windowOffset
          + (initBuffer pageSize args).rankChunkSize ∧
      (chunkIOParams (initBuffer pageSize args) args chunkId chunk).windowOffset
          + (initBuffer pageSize args).rankChunkSize
        ≤ args.ioDepth * (initBuffer pageSize args).rankChunkSize := by
  obtain ⟨i, hi, -, rfl⟩ := (mem_wanted _ _ _).mp hr
  have hpad := rankParams_padded chunkId hpage ha.numThreads_pos ha.worldSize_pos hc
    args.rank
  obtain ⟨hlo, hhi⟩ := slice_in_window hpad hpage hbackend hi
  have hidx : chunkId.toNat % args.ioDepth + 1 ≤ args.ioDepth := Nat.mod_lt _ ha.ioDepth_pos
  have hwindow := Nat.mul_le_mul_right (initBuffer pageSize args).rankChunkSize hidx
  rw [Nat.succ_mul] at hwindow
  exact ⟨hlo, hhi, hwindow⟩

/-- An entry that names a piece of the buffer lies in it. -/
theorem prepareRead_fixed {p : ChunkIOParams} {op : UringReadOp} {size : ℕ}
    (hlen : (hostIovecs ptr size).length ≤ 2 ^ 16) (hbuf : ptr ≤ op.buf) (hpos : 0 < op.size)
    (hfit : op.buf - ptr + op.size ≤ size) {i : ℕ} (hi : (prepareRead ptr p op).bufIndex = some i) :
    ∃ iov, (hostIovecs ptr size)[i]? = some iov ∧ iov.base ≤ (prepareRead ptr p op).addr ∧
      (prepareRead ptr p op).addr + (prepareRead ptr p op).len ≤ iov.base + iov.len := by
  simp only [prepareRead] at hi ⊢
  split at hi
  · next hne =>
    obtain rfl := Option.some.inj hi
    unfold bufferIndex at hne ⊢
    simp only at hne ⊢
    split at hne
    · next hsame =>
      rw [if_pos hsame]
      have hright : (op.buf - ptr + op.size - 1) / ioUringRegisterBufferSize
          = (op.buf - ptr) / ioUringRegisterBufferSize := by
        rw [hsame]
        congr 1
        omega
      obtain ⟨iov, hget, hlo, hhi⟩ := fixed_in_iovec hpos hfit rfl hright
      have hlt : (op.buf - ptr) / ioUringRegisterBufferSize < 2 ^ 16 :=
        Nat.lt_of_lt_of_le (List.getElem?_eq_some_iff.mp hget).1 hlen
      rw [toInt_of_lt (by omega), Int.toNat_natCast, Nat.mod_eq_of_lt hlt]
      have hcut := Nat.mod_le op.size (2 ^ 32)
      exact ⟨iov, hget, by omega, by omega⟩
    · exact absurd rfl hne
  · simp at hi

end

/-- **The io_uring reads are the slices asked for exactly if the first slice of the rank, in
whole pages, is shorter than 4 GiB.** -/
theorem uring_reads_iff {pageSize : ℕ} {args : OpenArgs} {chunk : Chunk} (chunkId : ℤ)
    (cached : List HostBuffer) (allocated : ℕ) (register : List Iovec → ℤ) {iovs : List Iovec}
    (hpage : 0 < pageSize) (ha : args.Admitted)
    (hbackend : args.backend = Backend.URING ∨ args.backend = Backend.URING_BUFFERED)
    (hc : chunk.Postable (initBuffer pageSize args))
    -- the kernel registers no more buffers than an entry can name
    (hlimit : ∀ iovs, 0 ≤ register iovs → iovs.length ≤ 2 ^ 16)
    (hregistered : registerHostBuffer register
      (hostBufferEntry (initBuffer pageSize args) args cached allocated).ptr
      (hostBufferEntry (initBuffer pageSize args) args cached allocated).size = some iovs) :
    UringReads (initBuffer pageSize args) args
        (hostBufferEntry (initBuffer pageSize args) args cached allocated).ptr
        (chunkIOParams (initBuffer pageSize args) args chunkId chunk) iovs ↔
      roundUp (min (chunk.size - (chunkIOParams (initBuffer pageSize args) args chunkId
          chunk).rankOffset)
        (chunkIOParams (initBuffer pageSize args) args chunkId chunk).paddedThreadSize) pageSize
        < 2 ^ 32 := by
  set g := initBuffer pageSize args with hg
  set entry := hostBufferEntry g args cached allocated with hentry
  set p := chunkIOParams g args chunkId chunk with hp
  have hn := ha.numThreads_pos
  have hfirst : p.threadSize 0 = min (chunk.size - p.rankOffset) p.paddedThreadSize := by
    rw [ChunkIOParams.threadSize, ChunkIOParams.threadOffset, Nat.mul_zero, Nat.sub_zero]
    rfl
  have hshort := (ranges_iff entry.ptr (g := g) (p := p)).trans
    (all_threadSize_lt_iff hpage hn)
  rw [← hfirst]
  have hwindow : ∀ r ∈ wanted g args p, p.windowOffset ≤ r.bufferOffset ∧
      r.bufferOffset + roundUp r.size g.threadAlignment ≤ p.windowOffset + g.rankChunkSize ∧
      p.windowOffset + g.rankChunkSize ≤ args.ioDepth * g.rankChunkSize := by
    intro r hr
    exact wanted_in_window hpage ha (by rcases hbackend with hb | hb <;> simp [hb]) hc hr
  refine ⟨fun h => hshort.mp h.ranges, fun h => ⟨hshort.mpr h, ?_, ?_⟩⟩
  · intro e he
    obtain ⟨r, hr, rfl⟩ := mem_uringSqes.mp he
    obtain ⟨hlo, hhi, -⟩ := hwindow r hr
    have hcut := Nat.mod_le (roundUp r.size g.threadAlignment) (2 ^ 32)
    simp only [prepareRead]
    omega
  · intro e he i hi
    obtain ⟨r, hr, rfl⟩ := mem_uringSqes.mp he
    obtain ⟨-, hhi, hend⟩ := hwindow r hr
    have hpos : 0 < roundUp r.size g.threadAlignment := by
      obtain ⟨j, -, hpos, rfl⟩ := (mem_wanted g args p).mp hr
      exact Nat.lt_of_lt_of_le hpos (le_roundUp hpage)
    have hroom := le_hostBufferEntry g args cached allocated
    unfold registerHostBuffer at hregistered
    split at hregistered
    · simp at hregistered
    · next hok =>
      obtain rfl := Option.some.inj hregistered
      refine prepareRead_fixed (hlimit _ (by omega)) (Nat.le_add_right _ _) hpos ?_ hi
      rw [Nat.add_sub_cancel_left]
      exact Nat.le_trans hhi (Nat.le_trans hend hroom)

/-- A kernel that registers at most `2 ^ 14` buffers. -/
def registerBuffers (iovs : List Iovec) : ℤ := if iovs.length ≤ 2 ^ 14 then 0 else -22

theorem length_le_of_registerBuffers {iovs : List Iovec} (h : 0 ≤ registerBuffers iovs) :
    iovs.length ≤ 2 ^ 16 := by
  unfold registerBuffers at h
  split at h
  · omega
  · simp at h

/-- Two threads, three windows of 16 KiB. -/
def twoThreads : OpenArgs where
  rank := 0
  worldSize := 1
  bufferSize := 0
  chunkSize := 8192
  numThreads := 2
  ioDepth := 3
  backend := .URING
  tensorOffsets := []

/-- A chunk read to the second window of a cached buffer of 2 GiB. -/
theorem uring_reads_cached :
    UringReads (initBuffer 4096 twoThreads) twoThreads 4096
      (chunkIOParams (initBuffer 4096 twoThreads) twoThreads 4
        { size := 9000, fileIndex := 0, fileOffset := 4096, deviceBufferOffset := 16 })
      (hostIovecs 4096 (2 ^ 31)) :=
  (uring_reads_iff 4 [⟨0, 100⟩, ⟨4096, 2 ^ 31⟩] 0 registerBuffers
    (show 0 < 4096 by decide) (by decide) (.inl rfl) ⟨by decide, by decide, by decide⟩
    (fun _ => length_le_of_registerBuffers)
    (by simp [hostBufferEntry, cacheGet, twoThreads, initBuffer, registerHostBuffer,
      registerBuffers, hostIovecs, ioUringRegisterBufferSize])).mpr (by decide)

/-! ## A chunk of 4 GiB -/

/-- One file with one tensor of 4 GiB, to be read in chunks of 4 GiB. -/
def hugeChunk : Load := Load.of 4096 {
    rank := 0
    worldSize := 1
    bufferSize := 2 ^ 32
    chunkSize := 2 ^ 32
    numThreads := 1
    ioDepth := 3
    backend := .URING
    tensorOffsets := [(0, 0), (0, 2 ^ 32)] } (by decide)

/-- Its one entry has length zero. -/
theorem hugeChunk_cut_off : ¬ ∀ (l : Load) (register : List Iovec → ℤ) (cached : List HostBuffer)
    (allocated c : ℕ) (chunk : Chunk) (iovs : List Iovec),
    l.args.backend = Backend.URING → l.layout.chunks[c]? = some chunk →
    (∀ iovs, 0 ≤ register iovs → iovs.length ≤ 2 ^ 16) →
    registerHostBuffer register (hostBufferEntry l.geometry l.args cached allocated).ptr
      (hostBufferEntry l.geometry l.args cached allocated).size = some iovs →
    UringReads l.geometry l.args (hostBufferEntry l.geometry l.args cached allocated).ptr
      (chunkIOParams l.geometry l.args c chunk) iovs := by
  intro h
  have hreads := h hugeChunk registerBuffers [] 0 0 ⟨2 ^ 32, 0, 0, 16⟩ (hostIovecs 0 (3 * 2 ^ 32)) rfl
    (by decide +kernel) (fun _ => length_le_of_registerBuffers)
    (by simp [hostBufferEntry, cacheGet, hugeChunk, Load.of, Load.geometry, initBuffer,
      registerHostBuffer, registerBuffers, hostIovecs, ioUringRegisterBufferSize])
  exact absurd hreads.ranges (by decide +kernel)

end InstantTensor
