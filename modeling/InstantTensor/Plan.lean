/-
# `InstantTensor.Plan` — what the layout is, without the cursors

`compute_layout` interleaves three decisions; this module states them one at a
time, as functions of the tensor offsets alone.

* **Segments.**  A segment is a contiguous range of one file that lies
  contiguously in the device buffer.  A file opens a segment at the page that
  holds its first tensor; a tensor that no longer fits behind the segment closes
  it, and a new one opens at the start of the buffer.
* **Laps.**  The segments between two returns to the start of the buffer are a
  lap, and the plan is the list of laps.
* **Chunks and prefetch.**  A segment is read in pieces of `worldChunkSize`.  A
  tensor's prefetch chunk is the last one before the first chunk of the *next*
  lap whose padded device range ends behind the tensor's address.

`settle` turns a plan into a layout.  That `compute_layout` computes exactly
`settle` of the plan is `computeLayout_eq_settle`, in `InstantTensor.Refine`; every fact
about the layout is proved here or later for plans.
-/
import InstantTensor.Layout

namespace InstantTensor

/-! ## Tensor offsets the frontend produces -/

/-- `OffsetsFrom f o filled rest`: `rest` continues a list whose last entry is
offset `o` of file `f`; `filled` says that `f` already has a tensor. -/
def OffsetsFrom : ℕ → ℕ → Bool → List (ℕ × ℕ) → Prop
  | _, _, filled, [] => filled = true
  | f, o, filled, (f', o') :: rest =>
      (f' = f ∧ o ≤ o' ∧ OffsetsFrom f o' true rest) ∨
      (filled = true ∧ f' = f + 1 ∧ OffsetsFrom f' o' false rest)

/-- Files `0, 1, …` in order, each with at least one tensor and non-decreasing
offsets. -/
def ValidOffsets : List (ℕ × ℕ) → Prop
  | [] => False
  | (f, o) :: rest => f = 0 ∧ OffsetsFrom f o false rest

instance decOffsetsFrom : ∀ (f o : ℕ) (filled : Bool) (l : List (ℕ × ℕ)),
    Decidable (OffsetsFrom f o filled l)
  | _, _, filled, [] => inferInstanceAs (Decidable (filled = true))
  | f, _, _, (f', o') :: rest =>
      have := decOffsetsFrom f o' true rest
      have := decOffsetsFrom f' o' false rest
      inferInstanceAs (Decidable (_ ∨ _))

instance decValidOffsets : ∀ l : List (ℕ × ℕ), Decidable (ValidOffsets l)
  | [] => inferInstanceAs (Decidable False)
  | (_, _) :: _ => inferInstanceAs (Decidable (_ ∧ _))

/-- The sizes of the tensors an offset list describes. -/
def tensorSizes : List (ℕ × ℕ) → List ℕ
  | (f, o) :: (f', o') :: rest =>
      if f = f' then (o' - o) :: tensorSizes ((f', o') :: rest)
      else tensorSizes ((f', o') :: rest)
  | _ => []

/-! ## Segments -/

/-- A range `[base, stop)` of a file, read to device offset `dev`.  `extents` are
the tensors in it, as file ranges. -/
structure Segment where
  fileIndex : ℕ
  base : ℕ
  dev : ℕ
  stop : ℕ
  extents : List (ℕ × ℕ)
deriving DecidableEq, Repr

/-- The segments between two returns to the start of the buffer. -/
abbrev Lap := List Segment

section
variable (g : Geometry)

/-- A device offset at or behind `level` for a segment of file offset `o`, such that
the byte at `o` lies on a multiple of `firstTensorAlignment`. -/
def Segment.opened (fileIndex o level : ℕ) : Segment where
  fileIndex := fileIndex
  base := roundDown o g.threadAlignment
  dev := roundUp level firstTensorAlignment + firstTensorAlignment
    - o % g.threadAlignment % firstTensorAlignment
  stop := o
  extents := []

def Segment.push (s : Segment) (o o' : ℕ) : Segment :=
  { s with stop := o', extents := s.extents ++ [(o, o')] }

def Segment.len (s : Segment) : ℕ := s.stop - s.base

/-- Where the padded device range of the segment ends. -/
def Segment.devStop (s : Segment) : ℕ := s.dev + roundUp s.len g.worldChunkAlignment

/-- The chunk for piece `q` of a segment, were the segment long enough. -/
def Segment.full (s : Segment) (q : ℕ) : Chunk where
  size := g.worldChunkSize
  fileIndex := s.fileIndex
  fileOffset := s.base + q * g.worldChunkSize
  deviceBufferOffset := s.dev + q * g.worldChunkSize

/-- Piece `q` of a segment: full, or what is left of the segment. -/
def Segment.chunk (s : Segment) (q : ℕ) : Chunk :=
  { s.full g q with size := min g.worldChunkSize (s.len - q * g.worldChunkSize) }

def Segment.chunks (s : Segment) : List Chunk :=
  (List.range (divCeil s.len g.worldChunkSize)).map (s.chunk g)

def Lap.chunks (lap : Lap) : List Chunk := lap.flatMap (Segment.chunks g)

/-! ## The plan -/

/-- The laps of an offset list, given the open segment and the closed segments of
the open lap. -/
def planFrom : List (ℕ × ℕ) → Segment → Lap → List Lap
  | (f, o) :: (f', o') :: rest, s, closed =>
      if f ≠ f' then
        planFrom ((f', o') :: rest) (Segment.opened g f' o' (s.devStop g)) (closed ++ [s])
      else if (s.push o o').devStop g ≤ g.bufferSize then
        planFrom ((f', o') :: rest) (s.push o o') closed
      else
        (closed ++ [s]) :: planFrom ((f', o') :: rest) ((Segment.opened g f o 0).push o o') []
  | _, s, closed => [closed ++ [s]]

def plan : List (ℕ × ℕ) → List Lap
  | [] => []
  | (f, o) :: rest => planFrom g ((f, o) :: rest) (Segment.opened g f o 0) []

/-! ## The layout of a plan -/

/-- Where the padded device range of a chunk ends. -/
def Chunk.devStop (c : Chunk) : ℕ := c.deviceBufferOffset + roundUp c.size g.worldChunkAlignment

/-- The tensors of a segment whose first chunk is `n`, their prefetch chunk not yet
known. -/
def Segment.tensors (n : ℕ) (s : Segment) : List TensorMetadate :=
  s.extents.map fun e => {
    size := e.2 - e.1
    fileIndex := s.fileIndex
    fileOffset := e.1
    deviceBufferOffset := s.dev + (e.1 - s.base)
    lastChunkId := (n + (e.2 - s.base - 1) / g.worldChunkSize : ℕ)
    prefetchChunkId := 0 }

def Lap.tensors : ℕ → Lap → List TensorMetadate
  | _, [] => []
  | n, s :: lap => s.tensors g n ++ Lap.tensors (n + (s.chunks g).length) lap

/-- The tensor may stay in use while `n` chunks, and of the next lap those that end
at or before it, are written. -/
def TensorMetadate.settle (n : ℕ) (next : List Chunk) (t : TensorMetadate) : TensorMetadate :=
  { t with
    prefetchChunkId := (n : ℤ) - 1
      + (next.takeWhile fun c => c.devStop g ≤ t.deviceBufferOffset).length }

/-- The layout of a plan whose first chunk is `n`. -/
def settle : ℕ → List Lap → Layout
  | _, [] => { tensors := [], chunks := [] }
  | n, lap :: laps =>
      let n' := n + (lap.chunks g).length
      let later := settle n' laps
      { tensors := (lap.tensors g n).map (TensorMetadate.settle g n' (Lap.chunks g (laps.headD [])))
          ++ later.tensors
        chunks := lap.chunks g ++ later.chunks }

end

end InstantTensor
