/-
# `InstantTensor.Loader` — the loader thread

`Loader::run` and what it calls, as a system that moves by choices (`Loader.next`).  The
thread takes requests from a queue and, between requests and while it waits for a tensor,
posts chunks and reaps the handles of posted ones.  Its position in the code is
`Control`; one move goes from one loop head or call to the next.

The environment decides two things at each move.  `arrived` says whether the next
request is in the queue when `run` looks; requests are served in order, so only the moment
is open.  `handles` says what reaping the handle of each chunk would do at this
moment: nothing yet (`pending`), return, or throw what the chunk's task threw.
Any choice is allowed here, also that a handle is done and later pending: a property of all
runs of this system holds whatever the I/O does.  A move that would have to wait is not
possible (`blocked`).

`log` is not in the source; it records, newest first, what the properties speak about.
-/
import InstantTensor.Lib.Runs
import InstantTensor.Layout

namespace InstantTensor

/-! ## Requests, errors, events -/

inductive Request where
  | open (args : OpenArgs)
  | close
  | getTensorPtr (tensorIndex : ℕ)
deriving DecidableEq, Repr

/-- What ends the loader thread.  `noSuchChunk` is an access to `chunks` past its end,
undefined in the source; `chunkFailed` is what the task of a chunk threw. -/
inductive LoaderError where
  | layout (error : LayoutError)
  | currentTensorOutOfRange
  | readingBeyondPrefetch
  | chunkIdOutOfRange
  | indexOutOfRange
  | outOfOrder
  | noSuchChunk
  | chunkFailed (chunkId : ℤ)
deriving DecidableEq, Repr

/-- Why a call does not return. -/
inductive Halt where
  | blocked
  | raised (error : LoaderError)
deriving DecidableEq, Repr

inductive Event where
  /-- `post_read_chunk` posted a chunk; `chunkRead` is the value at that moment. -/
  | posted (chunkId chunkRead : ℤ)
  /-- `get_tensor_ptr` returned the address of a tensor. -/
  | gave (tensorIndex : ℕ)
  | closed
deriving DecidableEq, Repr

/-- Where the thread stands. -/
inductive Control where
  /-- at the test of the loop of `run` -/
  | run
  /-- at the call of `try_step` -/
  | tryStep
  /-- at the test of the loop of `wait_step`, called by `get_tensor_ptr` -/
  | waitStep (chunkId : ℤ)
  /-- at the call of `poll_read_chunk`, made by `wait_step` for a chunk or by `try_step` -/
  | poll (awaited : Option ℤ)
  /-- `run` has returned -/
  | returned
  | failed (error : LoaderError)
deriving DecidableEq, Repr

/-- Where the thread goes on after `poll_read_chunk`. -/
def Control.afterPoll : Option ℤ → Control
  | some chunkId => .waitStep chunkId
  | none => .run

structure Loader where
  tensors : List TensorMetadate
  chunks : List Chunk
  ioDepth : ℕ
  currentTensorIndex : ℕ
  chunkReading : ℤ
  chunkRead : ℤ
  stop : Bool
  /-- The requests that have arrived or are still to come. -/
  inputQueue : List Request
  control : Control
  log : List Event
deriving DecidableEq, Repr

/-- The loader as it is constructed. -/
def Loader.create (inputQueue : List Request) : Loader where
  tensors := []
  chunks := []
  ioDepth := 0
  currentTensorIndex := 0
  chunkReading := -1
  chunkRead := -1
  stop := false
  inputQueue := inputQueue
  control := .run
  log := []

/-- What reaping a handle would do. -/
inductive Reap where
  | pending | done | raised
deriving DecidableEq, Repr

structure Choice where
  arrived : Bool
  handles : ℤ → Reap

namespace Loader

/-! ## Reaping -/

section
variable (handles : ℤ → Reap)

/-- The loop of `poll_read_chunk`, for `n` more handles from `next` on. -/
def pollLoop : ℕ → ℤ → Except Halt ℤ
  | 0, next => .ok next
  | n + 1, next =>
      match handles next with
      | .pending => .ok next
      | .raised => .error (.raised (.chunkFailed next))
      | .done => pollLoop n (next + 1)

def pollReadChunk (s : Loader) : Except Halt Loader := do
  let next ← pollLoop handles (s.chunkReading - s.chunkRead).toNat (s.chunkRead + 1)
  return { s with chunkRead := next - 1 }

/-- The loop of `wait_read_chunk`, for `n` more handles from `next` on. -/
def waitLoop : ℕ → ℤ → Except Halt ℤ
  | 0, next => .ok next
  | n + 1, next =>
      match handles next with
      | .pending => .error .blocked
      | .raised => .error (.raised (.chunkFailed next))
      | .done => waitLoop n (next + 1)

def waitReadChunk (chunkId : ℤ) (s : Loader) : Except Halt Loader :=
  if s.chunkReading < chunkId then .error (.raised .chunkIdOutOfRange)
  else do
    let next ← waitLoop handles (chunkId - s.chunkRead).toNat (s.chunkRead + 1)
    return { s with chunkRead := next - 1 }

/-! ## Posting -/

/-- The wait of `post_read_chunk`: for room in the executors' queues, and for the last user
of the host buffer. -/
def waitWindow (chunkId : ℤ) (s : Loader) : Except Halt Loader :=
  let waitChunkId := max (chunkId - maxPrefetchChunks) (chunkId - s.ioDepth)
  if 0 ≤ waitChunkId then waitReadChunk handles waitChunkId s else .ok s

/-- `post_read_chunk`, up to what it hands to the backend. -/
def postReadChunk (s : Loader) : Except Halt Loader :=
  let chunkId := s.chunkReading + 1
  let s := { s with chunkReading := chunkId }
  if s.chunks.length ≤ chunkId then .error (.raised .noSuchChunk)
  else do
    let s ← waitWindow handles chunkId s
    return { s with log := .posted chunkId s.chunkRead :: s.log }

end

def canStep (s : Loader) : Except Halt Bool :=
  if s.tensors.length = 0 then .ok false
  else match s.tensors[s.currentTensorIndex]? with
    | none => .error (.raised .currentTensorOutOfRange)
    | some tensor =>
        if tensor.prefetchChunkId < s.chunkReading then .error (.raised .readingBeyondPrefetch)
        else .ok (s.chunkReading < tensor.prefetchChunkId)

/-! ## Requests -/

section
variable (pageSize : ℕ)

/-- `Loader::open`: the buffer sizes and the layout. -/
def «open» (args : OpenArgs) (s : Loader) : Except Halt Loader :=
  match computeLayout (initBuffer pageSize args) args.tensorOffsets with
  | .error error => .error (.raised (.layout error))
  | .ok layout =>
      .ok { s with tensors := layout.tensors, chunks := layout.chunks, ioDepth := args.ioDepth }

/-- `get_tensor_ptr` up to its call of `wait_step`. -/
def getTensorPtr (index : ℕ) (s : Loader) : Except Halt Loader :=
  match s.tensors[index]? with
  | none => .error (.raised .indexOutOfRange)
  | some tensor =>
      if index < s.currentTensorIndex then .error (.raised .outOfOrder)
      else .ok { s with currentTensorIndex := index, control := .waitStep tensor.lastChunkId }

def dispatch (s : Loader) : Request → Except Halt Loader
  | .open args => do
      let s ← s.open pageSize args
      return { s with control := .tryStep }
  | .close => .ok { s with stop := true, control := .tryStep, log := .closed :: s.log }
  | .getTensorPtr index => s.getTensorPtr index

/-! ## The thread -/

/-- One move from where the thread stands. -/
def move (c : Choice) (s : Loader) : Except Halt Loader :=
  match s.control with
  | .run =>
      if s.stop then .ok { s with control := .returned }
      else do
        let can ← s.canStep
        if !can || (c.arrived && !s.inputQueue.isEmpty) then
          match s.inputQueue with
          | [] => throw .blocked
          | m :: inputQueue => dispatch pageSize ({ s with inputQueue := inputQueue }) m
        else return { s with control := .tryStep }
  | .tryStep => do
      let can ← s.canStep
      if can then postReadChunk c.handles { s with control := .poll none }
      else return { s with control := .poll none }
  | .waitStep chunkId =>
      if s.chunkRead < chunkId then do
        let can ← s.canStep
        if can then postReadChunk c.handles { s with control := .poll (some chunkId) }
        else waitReadChunk c.handles chunkId s
      else .ok { s with control := .tryStep, log := .gave s.currentTensorIndex :: s.log }
  | .poll awaited => do
      let s ← pollReadChunk c.handles s
      return { s with control := .afterPoll awaited }
  | .returned | .failed _ => .error .blocked

/-- The system: an exception ends the thread, a move that has to wait is not possible. -/
def next (c : Choice) (s : Loader) : Option Loader :=
  match s.move pageSize c with
  | .ok s' => some s'
  | .error .blocked => none
  | .error (.raised error) => some { s with control := .failed error }

end

end Loader

end InstantTensor
