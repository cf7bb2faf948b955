/-
# `InstantTensor.Types` — the loader's data

The records the loader computes with, field for field, less what no modelled
function reads: the request and the extra data of a chunk live with the I/O
model, and file names, descriptors and CUDA handles do not appear.

`size_t` values are natural numbers.  Additions are left unbounded (every sum
the layout forms is an offset into a file or into an allocated buffer), while a
subtraction goes through `sizeSub`, which stops where `size_t` would wrap
around.  `chunk_id_t` is signed in the source and an integer here.
-/
import Mathlib.Data.Int.Notation
import InstantTensor.Lib.Rounding

namespace InstantTensor

/-! ## Constants -/

/-- The capacity of every executor queue: no more chunks are ever outstanding. -/
def maxPrefetchChunks : ℕ := 1024

/-- Covers `sizeof(dtype)` for every dtype. -/
def firstTensorAlignment : ℕ := 16

/-! ## Records -/

inductive Backend where
  | AIO | AIO_BUFFERED | URING | URING_BUFFERED | CUFILE | MMAP
deriving DecidableEq, Repr

/-- What `OPEN` carries.  `tensorOffsets` lists pairs of a file index and a file
offset, one per tensor and one more per file, for the end of its last tensor. -/
structure OpenArgs where
  rank : ℕ
  worldSize : ℕ
  bufferSize : ℕ
  chunkSize : ℕ
  numThreads : ℕ
  ioDepth : ℕ
  backend : Backend
  tensorOffsets : List (ℕ × ℕ)
deriving DecidableEq, Repr

structure TensorMetadate where
  size : ℕ
  fileIndex : ℕ
  fileOffset : ℕ
  deviceBufferOffset : ℕ
  /-- Last chunk that holds the tensor's data. -/
  lastChunkId : ℤ
  /-- The furthest chunk that may be prefetched while this tensor is in use. -/
  prefetchChunkId : ℤ
deriving DecidableEq, Repr, Inhabited

structure Chunk where
  size : ℕ
  fileIndex : ℕ
  fileOffset : ℕ
  deviceBufferOffset : ℕ
deriving DecidableEq, Repr, Inhabited

/-- What `compute_layout` leaves behind in the loader. -/
structure Layout where
  tensors : List TensorMetadate
  chunks : List Chunk
deriving DecidableEq, Repr

/-! ## The sizes `init_buffer` fixes -/

/-- The loader's size fields once `init_buffer` has run.  `bufferSize` is the
enlarged value, the one handed to `cudaMalloc`. -/
structure Geometry where
  threadAlignment : ℕ
  rankAlignment : ℕ
  worldChunkAlignment : ℕ
  threadChunkSize : ℕ
  rankChunkSize : ℕ
  worldChunkSize : ℕ
  bufferSize : ℕ
deriving DecidableEq, Repr

/-- `Loader::init_buffer`, up to the allocations. -/
def initBuffer (pageSize : ℕ) (args : OpenArgs) : Geometry :=
  let threadAlignment := pageSize
  let rankAlignment := threadAlignment * args.numThreads
  let worldChunkAlignment := rankAlignment * args.worldSize
  let threadChunkSize :=
    if args.chunkSize % threadAlignment ≠ 0 then roundUp args.chunkSize threadAlignment
    else args.chunkSize
  let rankChunkSize := threadChunkSize * args.numThreads
  let worldChunkSize := rankChunkSize * args.worldSize
  let inflightDeviceBufferSize := args.ioDepth * worldChunkSize
  let bufferSize :=
    if args.bufferSize < inflightDeviceBufferSize then inflightDeviceBufferSize
    else args.bufferSize
  let paddedSize := 3 * (firstTensorAlignment + threadAlignment + worldChunkAlignment)
  { threadAlignment, rankAlignment, worldChunkAlignment, threadChunkSize, rankChunkSize,
    worldChunkSize, bufferSize := bufferSize + paddedSize }

/-- The arguments the frontend and the process group vouch for. -/
structure OpenArgs.Admitted (args : OpenArgs) : Prop where
  chunkSize_pos : 0 < args.chunkSize
  numThreads_pos : 0 < args.numThreads
  ioDepth_pos : 0 < args.ioDepth
  worldSize_pos : 0 < args.worldSize

/-- What the layout needs of the sizes: units nest, and nothing is empty. -/
structure Geometry.WF (g : Geometry) : Prop where
  thread_pos : 0 < g.threadAlignment
  world_pos : 0 < g.worldChunkAlignment
  chunk_pos : 0 < g.worldChunkSize
  thread_dvd : g.threadAlignment ∣ g.worldChunkAlignment
  world_dvd : g.worldChunkAlignment ∣ g.worldChunkSize

section
variable {pageSize : ℕ} {args : OpenArgs}

theorem initBuffer_threadChunkSize (hp : 0 < pageSize) :
    (initBuffer pageSize args).threadChunkSize = roundUp args.chunkSize pageSize := by
  simp only [initBuffer]
  split
  · rfl
  · next h =>
    exact (roundUp_of_dvd hp (Nat.dvd_of_mod_eq_zero (by omega))).symm

theorem initBuffer_wf (hp : 0 < pageSize) (ha : args.Admitted) :
    (initBuffer pageSize args).WF := by
  have hn := ha.numThreads_pos
  have hw := ha.worldSize_pos
  have hchunk : (initBuffer pageSize args).threadChunkSize = roundUp args.chunkSize pageSize :=
    initBuffer_threadChunkSize hp
  have hdvd : pageSize ∣ (initBuffer pageSize args).threadChunkSize :=
    hchunk ▸ dvd_roundUp _ _
  have hpos : 0 < (initBuffer pageSize args).threadChunkSize :=
    hchunk ▸ Nat.lt_of_lt_of_le ha.chunkSize_pos (le_roundUp hp)
  refine ⟨hp, Nat.mul_pos (Nat.mul_pos hp hn) hw, Nat.mul_pos (Nat.mul_pos hpos hn) hw, ?_, ?_⟩
  · exact ⟨args.numThreads * args.worldSize, Nat.mul_assoc _ _ _⟩
  · exact Nat.mul_dvd_mul (Nat.mul_dvd_mul hdvd (Nat.dvd_refl _)) (Nat.dvd_refl _)

/-- The padding of `init_buffer`: room for three units of every kind beyond the
buffer the frontend asked for. -/
theorem le_initBuffer_bufferSize (pageSize : ℕ) (args : OpenArgs) :
    args.bufferSize + 3 * (firstTensorAlignment + (initBuffer pageSize args).threadAlignment
      + (initBuffer pageSize args).worldChunkAlignment) ≤ (initBuffer pageSize args).bufferSize := by
  have enlarge : ∀ inflight : ℕ, args.bufferSize ≤
      if args.bufferSize < inflight then inflight else args.bufferSize := by
    intro inflight
    split <;> omega
  exact Nat.add_le_add_right (enlarge _) _

end

end InstantTensor
