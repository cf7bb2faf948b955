/-
# `InstantTensor.Slices` — how a chunk is cut into reads

`post_read_chunk` cuts a chunk, padded to world units, into one piece a rank, and the
backend cuts the piece of its rank into one slice a thread.  The chunk's bytes end inside
one of the slices, so behind it slices are empty, and an empty slice is not read.

The sizes are written in the source as a difference of `size_t`, cast to `ssize_t` and
clamped at zero; on natural numbers that is the truncated difference.

AIO and CUFILE keep what they have set up for thread `i` at place `i` of an array and
later go through the first `submit_cnt` places.  That these are the slices read is
`issued_eq`: the slices with bytes come first.
-/
import InstantTensor.Lib.Lists
import InstantTensor.Types

namespace InstantTensor

/-- What `post_read_chunk` computes of a chunk and hands to the backend; device addresses
are offsets into the device buffer. -/
structure ChunkIOParams where
  chunkId : ℤ
  chunk : Chunk
  paddedWorldChunkSize : ℕ
  paddedRankSize : ℕ
  paddedThreadSize : ℕ
  rankOffset : ℕ
  rankSize : ℕ
  windowIdx : ℕ
  windowOffset : ℕ
  rankDst : ℕ
  allDst : ℕ
deriving DecidableEq, Repr

/-- The head of `post_read_chunk`. -/
def chunkIOParams (g : Geometry) (args : OpenArgs) (chunkId : ℤ) (chunk : Chunk) : ChunkIOParams :=
  let paddedWorldChunkSize := roundUp chunk.size g.worldChunkAlignment
  let paddedRankSize := paddedWorldChunkSize / args.worldSize
  let paddedThreadSize := paddedRankSize / args.numThreads
  let rankOffset := paddedRankSize * args.rank
  let rankSize := min (chunk.size - rankOffset) paddedRankSize
  let windowIdx := chunkId.toNat % args.ioDepth
  let windowOffset := windowIdx * g.rankChunkSize
  { chunkId, chunk, paddedWorldChunkSize, paddedRankSize, paddedThreadSize, rankOffset, rankSize,
    windowIdx, windowOffset
    rankDst := chunk.deviceBufferOffset + rankOffset
    allDst := chunk.deviceBufferOffset }

namespace ChunkIOParams

variable (p : ChunkIOParams)

def threadOffset (i : ℕ) : ℕ := p.paddedThreadSize * i

def threadSize (i : ℕ) : ℕ :=
  min (p.chunk.size - p.rankOffset - p.threadOffset i) p.paddedThreadSize

theorem threadOffset_mono {i j : ℕ} (h : i ≤ j) : p.threadOffset i ≤ p.threadOffset j :=
  Nat.mul_le_mul_left _ h

/-- Behind an empty slice all slices are empty. -/
theorem threadSize_pos_of_le {i j : ℕ} (hij : i ≤ j) (h : 0 < p.threadSize j) :
    0 < p.threadSize i := by
  have hmono := p.threadOffset_mono hij
  simp only [threadSize] at *
  omega

end ChunkIOParams

/-! ## Reads -/

/-- One slice as the backend reads it: `size` is the `thread_size` the slice must supply,
`request` the length passed to the read call.  `bufferOffset` is a place in the host buffer,
for CUFILE in the device buffer. -/
structure Read where
  chunkId : ℤ
  thread : ℕ
  size : ℕ
  request : ℕ
  fileIndex : ℕ
  fileOffset : ℕ
  bufferOffset : ℕ
deriving DecidableEq, Repr

section
variable (g : Geometry) (args : OpenArgs) (p : ChunkIOParams)

/-- AIO asks for whole pages, URING as well, in a field of 32 bits; CUFILE asks for the slice,
and MMAP copies it. -/
def requestSize (threadSize : ℕ) : ℕ :=
  match args.backend with
  | Backend.AIO | Backend.AIO_BUFFERED => roundUp threadSize g.threadAlignment
  | Backend.URING | Backend.URING_BUFFERED => roundUp threadSize g.threadAlignment % 2 ^ 32
  | Backend.CUFILE | Backend.MMAP => threadSize

def slice (i : ℕ) : Read where
  chunkId := p.chunkId
  thread := i
  size := p.threadSize i
  request := requestSize g args (p.threadSize i)
  fileIndex := p.chunk.fileIndex
  fileOffset := p.chunk.fileOffset + p.rankOffset + p.threadOffset i
  bufferOffset :=
    match args.backend with
    | Backend.CUFILE => p.chunk.deviceBufferOffset + p.rankOffset + p.threadOffset i
    | _ => p.windowOffset + p.threadOffset i

/-- The slices of the rank, empty ones included: what the arrays of the backends hold. -/
def slices : List Read := (List.range args.numThreads).map (slice g args p)

/-- Slices to read; the others are passed over by `continue`. -/
def wanted : List Read := (slices g args p).filter fun r => decide (0 < r.size)

/-- The first `submit_cnt` places of the array of slices. -/
def firstWanted : List Read := (slices g args p).take (wanted g args p).length

/-- The reads the backend issues: AIO passes a part of its array of control blocks to
`io_submit`, the other backends issue a read where they meet a slice. -/
def issued : List Read :=
  match args.backend with
  | Backend.AIO | Backend.AIO_BUFFERED => firstWanted g args p
  | _ => wanted g args p

/-- `unaligned_last_page`: some slice ends inside a page. -/
def unalignedLastPage : Bool :=
  (slices g args p).any fun r => r.size != roundUp r.size g.threadAlignment

end

/-! ## The slices with bytes come first -/

section
variable (g : Geometry) (args : OpenArgs) (p : ChunkIOParams)

theorem firstWanted_eq : firstWanted g args p = wanted g args p := by
  refine take_length_filter (List.pairwise_map.mpr ?_)
  refine List.pairwise_lt_range.imp fun {i j} hij => ?_
  intro hj
  exact decide_eq_true (p.threadSize_pos_of_le (Nat.le_of_lt hij) (of_decide_eq_true hj))

theorem issued_eq : issued g args p = wanted g args p := by
  unfold issued
  split
  · exact firstWanted_eq g args p
  · exact firstWanted_eq g args p
  · rfl

theorem mem_wanted {r : Read} :
    r ∈ wanted g args p ↔ ∃ i < args.numThreads, 0 < p.threadSize i ∧ r = slice g args p i := by
  simp only [wanted, slices, List.mem_filter, List.mem_map, List.mem_range, decide_eq_true_eq]
  constructor
  · rintro ⟨⟨i, hi, rfl⟩, hpos⟩
    exact ⟨i, hi, hpos, rfl⟩
  · rintro ⟨i, hi, hpos, rfl⟩
    exact ⟨⟨i, hi, rfl⟩, hpos⟩

theorem chunkId_of_mem_wanted {r : Read} (h : r ∈ wanted g args p) : r.chunkId = p.chunkId := by
  obtain ⟨i, -, -, rfl⟩ := (mem_wanted g args p).mp h
  rfl

end

end InstantTensor
