/-
# `InstantTensor.Layout` — `Loader::compute_layout`

The function that decides, once per load, where every tensor sits in the device
buffer, which ranges of the files are read as one chunk, and how far the
prefetcher may run while a tensor is in use.  It walks the tensor offsets once
and mutates seven cursors and two vectors through three lambdas; the cursors
and the vectors are `LayoutState` and each lambda is a function on it.

Two things the source leaves to the machine are explicit.  A `size_t`
difference that would wrap around stops the model (`sizeUnderflow`), and the
chunk-splitting `while` carries a count of iterations and stops the model when
the count runs out (`splitDiverges`).  A write or a read past the end of a vector,
undefined in the source, is `outOfRange`.
-/
import InstantTensor.Types

namespace InstantTensor

/-- Why `compute_layout` does not return.  The first four are the exceptions of
the source; the others are where the model leaves the defined part of it. -/
inductive LayoutError where
  | chunkAlignment
  | unchunkedPage
  | unchunkedSizeMismatch
  | bufferSmallerThanTensor
  | sizeUnderflow
  | splitDiverges
  | outOfRange
deriving DecidableEq, Repr

/-- The cursors of `compute_layout`, with the two vectors it fills. -/
structure LayoutState where
  chunkFileIndex : ℕ
  /-- Offset of the open chunk in its file, a multiple of `threadAlignment`. -/
  chunkFileOffset : ℕ
  chunkDeviceBufferOffset : ℕ
  currentChunkSize : ℕ
  tensorId : ℕ
  /-- The earliest tensor that is still in the device buffer. -/
  inBufferTensorId : ℕ
  /-- The tensor with the smallest device address. -/
  leftMostTensorId : ℕ
  tensors : List TensorMetadate
  chunks : List Chunk
deriving DecidableEq, Repr

/-- `a - b` on `size_t`. -/
def sizeSub (a b : ℕ) : Except LayoutError ℕ :=
  if b ≤ a then .ok (a - b) else .error .sizeUnderflow

/-- The `while` of `finish_chunk` and of `reset_chunk_buffer_offset`: tensors
from `inBufferTensorId` on get `id`, as long as `gone` holds of them.  The count is
how many are left before `leftMostTensorId`. -/
def assignPrefetch (gone : TensorMetadate → Bool) (id : ℤ) : ℕ → LayoutState → LayoutState
  | 0, st => st
  | n + 1, st =>
      if gone (st.tensors.getD st.inBufferTensorId default) then
        assignPrefetch gone id n
          { st with
            tensors := st.tensors.modify st.inBufferTensorId
              (fun t => { t with prefetchChunkId := id })
            inBufferTensorId := st.inBufferTensorId + 1 }
      else st

section
variable (g : Geometry)

/-- The lambda `finish_chunk`. -/
def finishChunk (st : LayoutState) : Except LayoutError LayoutState :=
  if 0 < st.currentChunkSize then
    let chunks := st.chunks ++ [{
      size := st.currentChunkSize
      fileIndex := st.chunkFileIndex
      fileOffset := st.chunkFileOffset
      deviceBufferOffset := st.chunkDeviceBufferOffset }]
    if st.chunkFileOffset % g.threadAlignment ≠ 0 then .error .chunkAlignment
    else
      let chunkDeviceBufferOffset :=
        st.chunkDeviceBufferOffset + roundUp st.currentChunkSize g.worldChunkAlignment
      let prevChunkId : ℤ := (chunks.length : ℤ) - 2
      .ok (assignPrefetch (fun t => t.deviceBufferOffset < chunkDeviceBufferOffset) prevChunkId
        (st.leftMostTensorId - st.inBufferTensorId)
        { st with
          chunks
          -- may reread the last file page
          chunkFileOffset :=
            st.chunkFileOffset + roundDown st.currentChunkSize g.threadAlignment
          chunkDeviceBufferOffset
          currentChunkSize := st.currentChunkSize % g.threadAlignment })
  else .ok st

/-- The lambda `reset_chunk_buffer_offset`. -/
def resetChunkBufferOffset (newLeftMostTensorId : ℕ) (st : LayoutState) :
    Except LayoutError LayoutState :=
  if g.threadAlignment ≤ st.currentChunkSize then .error .unchunkedPage
  else
    let latestChunkId : ℤ := (st.chunks.length : ℤ) - 1
    let st := assignPrefetch (fun _ => true) latestChunkId
      (st.leftMostTensorId - st.inBufferTensorId) st
    .ok { st with
      chunkDeviceBufferOffset :=
        firstTensorAlignment - st.currentChunkSize % firstTensorAlignment
      leftMostTensorId := newLeftMostTensorId }

/-- The lambda `reset_chunk_file`. -/
def resetChunkFile (fileIndex fileOffset : ℕ) (st : LayoutState) :
    Except LayoutError LayoutState :=
  if g.threadAlignment ≤ st.currentChunkSize then .error .unchunkedPage
  else
    let currentChunkSize := fileOffset % g.threadAlignment
    .ok { st with
      chunkFileIndex := fileIndex
      chunkFileOffset := roundDown fileOffset g.threadAlignment
      currentChunkSize
      chunkDeviceBufferOffset :=
        roundUp st.chunkDeviceBufferOffset firstTensorAlignment + firstTensorAlignment
          - currentChunkSize % firstTensorAlignment }

/-- The `while` that cuts a tensor into chunks, and the addition after it. -/
def splitTensor : ℕ → ℕ → LayoutState → Except LayoutError LayoutState
  | 0, _, _ => .error .splitDiverges
  | fuel + 1, tensorSizeLeft, st =>
      if g.worldChunkSize < st.currentChunkSize + tensorSizeLeft then do
        let sizeAdd ← sizeSub g.worldChunkSize st.currentChunkSize
        let tensorSizeLeft ← sizeSub tensorSizeLeft sizeAdd
        let st ← finishChunk g { st with currentChunkSize := st.currentChunkSize + sizeAdd }
        splitTensor fuel tensorSizeLeft st
      else .ok { st with currentChunkSize := st.currentChunkSize + tensorSizeLeft }

/-- The capacity test of the placement loop: a tensor that does not fit behind the open
chunk goes to the beginning of the buffer. -/
def makeRoom (tensorSize : ℕ) (st : LayoutState) : Except LayoutError LayoutState :=
  if g.bufferSize < st.chunkDeviceBufferOffset
      + roundUp (st.currentChunkSize + tensorSize) g.worldChunkAlignment then do
    let st ← finishChunk g st
    resetChunkBufferOffset g st.tensorId st
  else .ok st

/-- The rest of the loop body: chunk the tensor and write its entry. -/
def appendTensor (fileIndex tensorFileOffset tensorSize : ℕ) (st : LayoutState) :
    Except LayoutError LayoutState := do
  let unchunked ← sizeSub tensorFileOffset st.chunkFileOffset
  let deviceBufferOffset := unchunked + st.chunkDeviceBufferOffset
  let st ← splitTensor g (tensorSize + 2) tensorSize st
  if st.tensorId < st.tensors.length then
    .ok { st with
      tensors := st.tensors.set st.tensorId {
        size := tensorSize
        fileIndex
        fileOffset := tensorFileOffset
        deviceBufferOffset
        lastChunkId := st.chunks.length
        prefetchChunkId := 0 }
      tensorId := st.tensorId + 1 }
  else .error .outOfRange

/-- The body of the placement loop for a tensor at `[tensorFileOffset, nextTensorOffset)`. -/
def placeTensor (fileIndex tensorFileOffset nextTensorOffset : ℕ) (st : LayoutState) :
    Except LayoutError LayoutState := do
  let unchunked ← sizeSub tensorFileOffset st.chunkFileOffset
  if st.currentChunkSize ≠ unchunked then throw .unchunkedSizeMismatch
  let tensorSize ← sizeSub nextTensorOffset tensorFileOffset
  if g.bufferSize < tensorSize then throw .bufferSmallerThanTensor
  let st ← makeRoom g tensorSize st
  appendTensor g fileIndex tensorFileOffset tensorSize st

/-- The placement loop, over each offset and the next. -/
def placeTensors : List (ℕ × ℕ) → LayoutState → Except LayoutError LayoutState
  | (fileIndex, tensorFileOffset) :: (nextFileIndex, nextTensorOffset) :: rest, st => do
      if fileIndex ≠ nextFileIndex then
        let st ← finishChunk g st
        let st ← resetChunkFile g nextFileIndex nextTensorOffset st
        placeTensors ((nextFileIndex, nextTensorOffset) :: rest) st
      else
        let st ← placeTensor g fileIndex tensorFileOffset nextTensorOffset st
        placeTensors ((nextFileIndex, nextTensorOffset) :: rest) st
  | _, st => .ok st

/-- What follows the placement loop. -/
def finishLayout (st : LayoutState) : Except LayoutError Layout := do
  let st ← finishChunk g st
  -- the tensors of the lap before the last one, then those of the last one
  let st ← resetChunkBufferOffset g st.tensorId st
  let st ← resetChunkBufferOffset g st.tensorId st
  return { tensors := st.tensors, chunks := st.chunks }

/-- `Loader::compute_layout`. -/
def computeLayout (tensorOffsets : List (ℕ × ℕ)) : Except LayoutError Layout := do
  match tensorOffsets.head?, tensorOffsets.getLast? with
  | some first, some last =>
      let numFiles := last.1 + 1
      let numTensors ← sizeSub tensorOffsets.length numFiles
      let st ← resetChunkFile g first.1 first.2 {
        chunkFileIndex := 0
        chunkFileOffset := 0
        chunkDeviceBufferOffset := 0
        currentChunkSize := 0
        tensorId := 0
        inBufferTensorId := 0
        leftMostTensorId := 0
        tensors := List.replicate numTensors default
        chunks := [] }
      let st ← placeTensors g tensorOffsets st
      finishLayout g st
  | _, _ => throw .outOfRange

end

end InstantTensor
