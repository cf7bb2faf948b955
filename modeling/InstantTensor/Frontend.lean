/-
# `InstantTensor.Frontend` — how `safe_open` fixes its parameters

Every rank derives `chunk_size`, `concurrency`, `io_depth` and `buffer_size` for itself: from the
arguments and the environment, from the files, and from what it finds on its machine
(`Member`).  Of the latter only the available device memory is made the same for all ranks,
by `all_reduce`.

Arguments are Python integers, so `ℤ`, with `//` rounding down and raising on zero.  The
fraction of the free memory that may be used is a float; its product with the free bytes
enters as `availBytes`.  The comparison with `overlap_factor` is made in exact arithmetic.
Warnings are left out, they change nothing.
-/
import Mathlib.Data.Rat.Defs
import Mathlib.Algebra.Order.Ring.Rat
import InstantTensor.Plan

namespace InstantTensor

/-! ## Arguments, files, machines -/

inductive BackendCandidate where
  | backend (backend : Backend)
  | BUFFERED
deriving DecidableEq, Repr

/-- The parameters that may be given as arguments or by `INSTANTTENSOR_*` variables. -/
structure Settings where
  bufferSize : Option ℤ
  chunkSize : Option ℤ
  concurrency : Option ℤ
  ioDepth : Option ℤ
  backend : Option (List BackendCandidate)
deriving DecidableEq, Repr

/-- A variable counts where no argument is given. -/
def Settings.orElse (args env : Settings) : Settings where
  bufferSize := args.bufferSize <|> env.bufferSize
  chunkSize := args.chunkSize <|> env.chunkSize
  concurrency := args.concurrency <|> env.concurrency
  ioDepth := args.ioDepth <|> env.ioDepth
  backend := args.backend <|> env.backend

/-- `inMemory` is `file_in_memory` of each file. -/
structure Files where
  inMemory : List Bool
  tensorOffsets : List (ℕ × ℕ)
deriving DecidableEq, Repr

/-- What a rank finds on its machine; `uringAvailable` and `cufileAvailable` are the probes of
`Loader::uring_available` and `Loader::cufile_available`. -/
structure Member where
  cpuCount : ℕ
  uringAvailable : Bool
  cufileAvailable : Bool
  availBytes : ℤ
deriving DecidableEq, Repr

/-- `backend_available` -/
def Member.available (m : Member) : Backend → Bool
  | .CUFILE => m.cufileAvailable
  | .URING | .URING_BUFFERED => m.uringAvailable
  | _ => true

inductive Rejection where
  | notSupported | notAvailable
deriving DecidableEq, Repr

inductive FrontendError where
  /-- `backend` is an empty list. -/
  | emptyBackend
  /-- Not all files are in the same filesystem. -/
  | mixedFilesystems
  | noAvailableBackend (rejected : List (Backend × Rejection))
  | zeroDivision
  /-- "Device memory is not enough" -/
  | deviceMemory
  /-- `max` of no tensor sizes. -/
  | noTensors
  /-- "Failed to determine a recommended buffer size" -/
  | noRecommendation
deriving DecidableEq, Repr

/-! ## Backends -/

def defaultBackend : List Backend := [Backend.URING, Backend.AIO]

def defaultBufferedIOBackend : List Backend :=
  [Backend.URING_BUFFERED, Backend.AIO_BUFFERED, Backend.MMAP]

def defaultInMemoryBackend : List Backend := [Backend.MMAP]

def availableInMemoryBackends : List Backend :=
  [Backend.MMAP, Backend.URING_BUFFERED, Backend.AIO_BUFFERED]

def expandBackendCandidate : BackendCandidate → List Backend
  | .backend backend => [backend]
  | .BUFFERED => defaultBufferedIOBackend

def parseBackendCandidates : Option (List BackendCandidate) →
    Except FrontendError (Option (List Backend))
  | none => .ok none
  | some [] => .error .emptyBackend
  | some backends => .ok (some (backends.flatMap expandBackendCandidate))

/-- `select_backend`, with the candidates rejected so far. -/
def selectBackend (available : Backend → Bool) (supportedBackends : Option (List Backend)) :
    List Backend → List (Backend × Rejection) → Except FrontendError Backend
  | [], rejected => .error (.noAvailableBackend rejected)
  | backend :: candidates, rejected =>
      if supportedBackends.any fun supported => backend ∉ supported then
        selectBackend available supportedBackends candidates (rejected ++ [(backend, .notSupported)])
      else if !available backend then
        selectBackend available supportedBackends candidates (rejected ++ [(backend, .notAvailable)])
      else .ok backend

/-! ## I/O parameters -/

/-- The parameters that all ranks have to share. -/
@[ext]
structure IOParams where
  chunkSize : ℤ
  concurrency : ℤ
  ioDepth : ℤ
deriving DecidableEq, Repr

def MiB : ℤ := 1024 * 1024

/-- The parameters of a load from memory, defaults filled in. -/
def inMemoryParams (worldSize cpuCount : ℕ) (s : Settings) : IOParams where
  chunkSize := s.chunkSize.getD (2 * MiB)
  concurrency := s.concurrency.getD (max (min 32 cpuCount / worldSize) 1 : ℕ)
  ioDepth := s.ioDepth.getD 3

/-- The parameters of a load from disk, defaults filled in. -/
def diskParams (worldSize : ℕ) (backend : Backend) (s : Settings) : IOParams :=
  if backend = Backend.CUFILE then
    { chunkSize := s.chunkSize.getD (8 * MiB)
      concurrency := s.concurrency.getD (max (32 / worldSize) 1 : ℕ)
      ioDepth := s.ioDepth.getD 16 }
  else
    { chunkSize := s.chunkSize.getD (8 * MiB)
      concurrency := s.concurrency.getD 1
      ioDepth := s.ioDepth.getD (max (512 / worldSize) 3 : ℕ) }

/-- The backend and the parameters before memory is looked at, on the machine of `m`. -/
def requestedParams (s : Settings) (files : Files) (worldSize : ℕ) (m : Member) :
    Except FrontendError (Backend × IOParams) := do
  let backendCandidates ← parseBackendCandidates s.backend
  let inMemory := files.inMemory.head?.getD false
  if files.inMemory.tail.any (· ≠ inMemory) then throw .mixedFilesystems
  if inMemory then
    let backend ← selectBackend m.available (some availableInMemoryBackends)
      (backendCandidates.getD defaultInMemoryBackend) []
    return (backend, inMemoryParams worldSize m.cpuCount s)
  else
    let backend ← selectBackend m.available none (backendCandidates.getD defaultBackend) []
    return (backend, diskParams worldSize backend s)

/-! ## Fitting them to the memory -/

/-- The device memory that the reads in flight take on all ranks together. -/
def IOParams.bytes (worldSize : ℕ) (p : IOParams) : ℤ :=
  p.chunkSize * p.concurrency * p.ioDepth * worldSize

/-- Python's `//`. -/
def floorDiv (a b : ℤ) : Except FrontendError ℤ :=
  if b = 0 then .error .zeroDivision else .ok (a.fdiv b)

section
variable (worldSize : ℕ) (availBytes : ℤ)

def shrinkIODepth (p : IOParams) : Except FrontendError IOParams :=
  if availBytes < p.bytes worldSize then do
    let shrinked ← floorDiv availBytes (p.chunkSize * p.concurrency * worldSize)
    return { p with ioDepth := max shrinked 3 }
  else .ok p

def shrinkConcurrency (p : IOParams) : Except FrontendError IOParams :=
  if availBytes < p.bytes worldSize then do
    let shrinked ← floorDiv availBytes (p.chunkSize * p.ioDepth * worldSize)
    return { p with concurrency := max shrinked 1 }
  else .ok p

/-- The end of `_determine_io_params`: both steps, and the test that they were enough. -/
def shrink (p : IOParams) : Except FrontendError IOParams := do
  let p ← shrinkIODepth worldSize availBytes p
  let p ← shrinkConcurrency worldSize availBytes p
  if availBytes < p.bytes worldSize then .error .deviceMemory else .ok p

end

/-- `all_reduce` with `MIN`: the least available memory of all ranks. -/
def allReduceMin (members : List Member) : ℤ := ((members.map Member.availBytes).min?).getD 0

/-- `_determine_io_params` on the rank of `m`. -/
def determineIOParams (s : Settings) (files : Files) (members : List Member) (m : Member) :
    Except FrontendError (Backend × IOParams) := do
  let (backend, p) ← requestedParams s files members.length m
  let p ← shrink members.length (allReduceMin members) p
  return (backend, p)

/-! ## The buffer size -/

/-- `d[key] += size` on a dictionary whose entries are 0 at first. -/
def addOverlap (key size : ℕ) : List (ℕ × ℕ) → List (ℕ × ℕ)
  | [] => [(key, size)]
  | (key', size') :: d =>
      if key' = key then (key', size' + size) :: d else (key', size') :: addOverlap key size d

/-- For each buffer size, the bytes it lets overlap with the tensor before them. -/
def overlappedSizes : List ℕ → List (ℕ × ℕ) → List (ℕ × ℕ)
  | size :: size' :: sizes, d =>
      overlappedSizes (size' :: sizes) (addOverlap (size + 2 * size') size' d)
  | _, d => d

/-- The loop over the buffer sizes in ascending order. -/
def leastOverlapping (enough : ℚ) : List (ℕ × ℕ) → ℕ → Option ℕ
  | [], _ => none
  | (bufferSize, size) :: d, overlapped =>
      if enough ≤ (overlapped + size : ℕ) then some bufferSize
      else leastOverlapping enough d (overlapped + size)

def recommendedBufferSizeForTensors (tensorSizes : List ℕ) (overlapFactor : ℚ) :
    Except FrontendError ℕ :=
  match tensorSizes with
  | [] => .ok 4096
  | first :: sizes =>
      let d := overlappedSizes (first :: sizes) [(first, first)]
      let total := (d.map Prod.snd).sum
      let bufferSizes := d.mergeSort fun a b => a.1 ≤ b.1
      match leastOverlapping (total * overlapFactor) bufferSizes 0 with
      | none => .error .noRecommendation
      | some bufferSize => .ok (max bufferSize (sizes.foldl max first))

/-- The default of `overlap_factor`. -/
def overlapFactor : ℚ := 9 / 10

/-- `_determine_buffer_size`. -/
def determineBufferSize (bufferSize : Option ℤ) (tensorSizes : List ℕ) (worldSize : ℕ)
    (p : IOParams) : Except FrontendError ℤ :=
  match bufferSize with
  | none => do
      let bufferSizeForTensors ← recommendedBufferSizeForTensors tensorSizes overlapFactor
      return max (bufferSizeForTensors : ℤ) (p.bytes worldSize)
  | some bufferSize =>
      match tensorSizes.max? with
      | none => .error .noTensors
      | some minBufferSize =>
          let bufferSize := if bufferSize < minBufferSize then (minBufferSize : ℤ) else bufferSize
          let maxBufferSize := tensorSizes.sum
          .ok (if (maxBufferSize : ℤ) < bufferSize then maxBufferSize else bufferSize)

/-! ## The constructor -/

/-- What `safe_open.__init__` leaves in the object for the loader. -/
structure SafeOpen where
  backend : Backend
  params : IOParams
  bufferSize : ℤ
deriving DecidableEq, Repr

/-- `safe_open.__init__` on the rank of `m`, one of `members`. -/
def safeOpen (args env : Settings) (files : Files) (members : List Member) (m : Member) :
    Except FrontendError SafeOpen := do
  let s := args.orElse env
  let (backend, params) ← determineIOParams s files members m
  let bufferSize ← determineBufferSize s.bufferSize (tensorSizes files.tensorOffsets)
    members.length params
  return { backend, params, bufferSize }

/-- A Python integer as a `size_t` argument. -/
def toSize (x : ℤ) : Option ℕ := if 0 ≤ x then some x.toNat else none

/-- The call of `instanttensor._C.open` in `_open`, with what the loader takes from the process
group; a negative size is a `TypeError`. -/
def SafeOpen.openArgs (files : Files) (rank worldSize : ℕ) (o : SafeOpen) : Option OpenArgs := do
  let bufferSize ← toSize o.bufferSize
  let chunkSize ← toSize o.params.chunkSize
  let numThreads ← toSize o.params.concurrency
  let ioDepth ← toSize o.params.ioDepth
  return {
    rank, worldSize, bufferSize, chunkSize, numThreads, ioDepth
    backend := o.backend
    tensorOffsets := files.tensorOffsets }

end InstantTensor
