/-
# `InstantTensor.Pipeline` — from a posted chunk to a handle that is done

Every thread of the process, as one system (`Pipeline.next`): the loader thread of
`InstantTensor.Loader`, `last_page_reader_thread`, `cuda_thread`, `wait_thread`, and the kernel or the
worker threads that execute the reads.  A `Turn` names who moves.

A chunk goes through it as follows.  The loader posts it: its reads are submitted one part
after the other (`submit`) — for AIO, when a slice ends inside a page, by
`last_page_reader_thread` instead — and then its tasks are handed to `cuda_thread` and
`wait_thread` (`hand`).  Reads complete in any order and with any result.  The task of
`cuda_thread` takes completions until the chunk has none left; AIO and URING have one queue
of completions for all chunks, so the task at work may take and count those of another
chunk.  When it is through, the task of `wait_thread` can return, and then the handle of the
chunk is done.

Whatever a thread of the process throws ends the process (`aborted`): the loader thread is
detached, and a worker of an executor throws on what its task threw.  MMAP is modelled as it
is without `INSTANTTENSOR_USE_INTERNAL_MEMORY_REGISTER`; its reads are copies that cannot fail.
-/
import InstantTensor.Loader
import InstantTensor.Slices

namespace InstantTensor

/-- What ended the process. -/
inductive Abort where
  | loader (error : LoaderError)
  /-- a read with a result the backend does not take -/
  | read (r : Read) (result : ℤ)
  /-- a call of the kernel, of CUDA or of NCCL other than a read -/
  | call
  /-- a chunk was posted after `CLOSE` -/
  | stopped
deriving DecidableEq, Repr

/-- The task of `last_page_reader_thread`: reads still to submit. -/
structure Job where
  chunkId : ℤ
  reads : List Read
deriving DecidableEq, Repr

/-- The task of `cuda_thread`.  `reaps` are the results it still has to reap one by one. -/
structure Task where
  chunkId : ℤ
  reaps : List Read
deriving DecidableEq, Repr

/-- The loader thread inside the backend's `post_read_chunk`. -/
structure Posting where
  reads : List Read
  task : Task
deriving DecidableEq, Repr

structure Pipeline where
  loader : Loader
  posting : Option Posting
  lastPage : List Job
  /-- Submitted and not completed. -/
  inFlight : List Read
  /-- Completed and not taken, oldest first, with their results. -/
  completed : List (Read × ℤ)
  unfinishedCnt : ℤ → ℕ
  cuda : List Task
  wait : List ℤ
  /-- Taken by a task, newest first. -/
  consumed : List (Read × ℤ)
  aborted : Option Abort

/-- A loader in front of its requests, with idle threads. -/
def Pipeline.create (loader : Loader) : Pipeline where
  loader := loader
  posting := none
  lastPage := []
  inFlight := []
  completed := []
  unfinishedCnt := fun _ => 0
  cuda := []
  wait := []
  consumed := []
  aborted := none

inductive Turn where
  /-- The loader thread makes a move. -/
  | loader (arrived : Bool)
  /-- The loader thread submits the next `n` reads of the chunk it posts. -/
  | submit (n : ℕ)
  /-- It hands the chunk to `cuda_thread` and `wait_thread`. -/
  | hand
  /-- `last_page_reader_thread` submits the next `n` reads of its task. -/
  | lastPage (n : ℕ)
  | lastPageDone
  | complete (r : Read) (result : ℤ)
  /-- The task of `cuda_thread` takes `n` completions. -/
  | take (n : ℕ)
  | cudaDone
  | waitDone
  | fault
deriving DecidableEq, Repr

/-! ## What the backends do differently -/

/-- The result of a read as `res` of an `io_event` has it.  The header of libaio is not part of the
repository; it declares `res` as an `unsigned long`, so there is no negative one. -/
class IoEvent where
  res : ℤ → ℤ
  res_nonneg : ∀ result, 0 ≤ res result

/-- An `unsigned long` of 64 bits. -/
instance : IoEvent where
  res result := result % 2 ^ 64
  res_nonneg _ := Int.emod_nonneg _ (by decide)

namespace Backend

/-- AIO and URING count the completions of a chunk in `unfinished_cnt`; the other backends
reap the results of a chunk one by one. -/
def counts : Backend → Bool
  | AIO | AIO_BUFFERED | URING | URING_BUFFERED => true
  | CUFILE | MMAP => false

/-- Which results a task does not take. -/
def rejects [IoEvent] (backend : Backend) (r : Read) (result : ℤ) : Bool :=
  match backend with
  | AIO | AIO_BUFFERED => IoEvent.res result < 0
  | URING | URING_BUFFERED => result < 0
  | CUFILE => result ≠ r.size
  | MMAP => false

/-- `cuFileRead` returns -1 where the worker itself throws. -/
def throws (backend : Backend) (result : ℤ) : Bool :=
  match backend with
  | CUFILE => result = -1
  | _ => false

/-- How many completions one call takes at most: `io_getevents` asks for all that the chunk
lacks, `io_uring_wait_cqe` for one. -/
def batch (backend : Backend) (unfinished : ℕ) : ℕ :=
  match backend with
  | AIO | AIO_BUFFERED => unfinished
  | _ => min unfinished 1

end Backend

/-- `unfinished_cnt --` on a `size_t`. -/
def sizeDec (n : ℕ) : ℕ := if n = 0 then 2 ^ 64 - 1 else n - 1

namespace Pipeline

/-- A handle is done when the task of `wait_thread` has returned. -/
def handles (s : Pipeline) (chunkId : ℤ) : Reap := if chunkId ∈ s.wait then .pending else .done

section
variable [IoEvent] (pageSize : ℕ) (args : OpenArgs)

/-! ## The loader thread -/

/-- `post_read_chunk_aio`, `post_read_chunk_uring`, `post_read_chunk_cufile` and
`post_read_chunk_inmem`, up to the submission of reads. -/
def postReads (p : ChunkIOParams) (s : Pipeline) : Pipeline :=
  let g := initBuffer pageSize args
  let reads := issued g args p
  match args.backend with
  | Backend.AIO | Backend.AIO_BUFFERED =>
      let s := { s with
        unfinishedCnt := Function.update s.unfinishedCnt p.chunkId (wanted g args p).length }
      if unalignedLastPage g args p && !(wanted g args p).isEmpty then
        { s with
          lastPage := s.lastPage ++ [{ chunkId := p.chunkId, reads }]
          posting := some { reads := [], task := { chunkId := p.chunkId, reaps := [] } } }
      else { s with posting := some { reads, task := { chunkId := p.chunkId, reaps := [] } } }
  | Backend.URING | Backend.URING_BUFFERED =>
      { s with
        unfinishedCnt := Function.update s.unfinishedCnt p.chunkId (wanted g args p).length
        posting := some { reads, task := { chunkId := p.chunkId, reaps := [] } } }
  | Backend.CUFILE | Backend.MMAP =>
      { s with
        posting := some { reads, task := { chunkId := p.chunkId, reaps := firstWanted g args p } } }

/-- `CLOSE` joins the threads: they have nothing left to do. -/
def joined (s : Pipeline) : Bool := s.lastPage.isEmpty && s.cuda.isEmpty && s.wait.isEmpty

/-- A move of the loader thread, up to the backend when it posts a chunk. -/
def loaderTurn (arrived : Bool) (s : Pipeline) : Option Pipeline :=
  if s.posting.isSome then none
  else match s.loader.next pageSize ⟨arrived, s.handles⟩ with
    | none => none
    | some loader =>
        match loader.control with
        | .failed error => some { s with aborted := some (.loader error) }
        | _ =>
            if loader.chunkReading ≠ s.loader.chunkReading then
              if loader.stop then some { s with aborted := some .stopped }
              else match loader.chunks[loader.chunkReading.toNat]? with
                | none => none
                | some chunk =>
                    let p := chunkIOParams (initBuffer pageSize args) args loader.chunkReading chunk
                    some (postReads pageSize args p { s with loader })
            else if loader.stop && !s.loader.stop && !s.joined then none
            else some { s with loader }

/-! ## The other threads -/

/-- The task of `cuda_thread` goes through `n` completions. -/
def consume : ℕ → Pipeline → Pipeline
  | 0, s => s
  | n + 1, s =>
      match s.completed with
      | [] => s
      | (r, result) :: completed =>
          if args.backend.rejects r result then { s with aborted := some (.read r result) }
          else consume n { s with
            completed
            unfinishedCnt :=
              Function.update s.unfinishedCnt r.chunkId (sizeDec (s.unfinishedCnt r.chunkId))
            consumed := (r, result) :: s.consumed }

/-- The task `task` of `cuda_thread`, with `rest` behind it, takes completions. -/
def takeTurn (n : ℕ) (task : Task) (rest : List Task) (s : Pipeline) : Option Pipeline :=
  if args.backend.counts then
    if 0 < n ∧ n ≤ args.backend.batch (s.unfinishedCnt task.chunkId) ∧ n ≤ s.completed.length
    then some (consume args n s)
    else none
  else match task.reaps with
    | [] => none
    | r :: reaps =>
        match s.completed.find? fun e => e.1 = r with
        | none => none
        | some (_, result) =>
            if args.backend.rejects r result then some { s with aborted := some (.read r result) }
            else some { s with
              completed := s.completed.erase (r, result)
              cuda := { task with reaps } :: rest
              consumed := (r, result) :: s.consumed }

/-- Whether the task has everything it waits for. -/
def finished (task : Task) (s : Pipeline) : Bool :=
  if args.backend.counts then s.unfinishedCnt task.chunkId = 0 else task.reaps.isEmpty

/-- A task of `cuda_thread` first reaps the task of `last_page_reader_thread`. -/
def submitted (task : Task) (s : Pipeline) : Bool :=
  s.lastPage.all fun job => job.chunkId ≠ task.chunkId

/-- One turn of a thread. -/
def turn (s : Pipeline) : Turn → Option Pipeline
  | .loader arrived => loaderTurn pageSize args arrived s
  | .submit n =>
      match s.posting with
      | none => none
      | some posting =>
          if 0 < n ∧ n ≤ posting.reads.length then
            some { s with
              posting := some { posting with reads := posting.reads.drop n }
              inFlight := s.inFlight ++ posting.reads.take n }
          else none
  | .hand =>
      match s.posting with
      | some ⟨[], task⟩ =>
          some { s with
            posting := none
            cuda := s.cuda ++ [task]
            wait := s.wait ++ [task.chunkId] }
      | _ => none
  | .lastPage n =>
      match s.lastPage with
      | [] => none
      | job :: jobs =>
          if 0 < n ∧ n ≤ job.reads.length then
            some { s with
              lastPage := { job with reads := job.reads.drop n } :: jobs
              inFlight := s.inFlight ++ job.reads.take n }
          else none
  | .lastPageDone =>
      match s.lastPage with
      | ⟨_, []⟩ :: jobs => some { s with lastPage := jobs }
      | _ => none
  | .complete r result =>
      if r ∈ s.inFlight ∧ result ≤ r.request then
        some { s with
          inFlight := s.inFlight.erase r
          completed := s.completed ++ [(r, result)]
          aborted := if args.backend.throws result then some (.read r result) else none }
      else none
  | .take n =>
      match s.cuda with
      | [] => none
      | task :: rest => if s.submitted task then takeTurn args n task rest s else none
  | .cudaDone =>
      match s.cuda with
      | [] => none
      | task :: rest =>
          if s.submitted task && s.finished args task then some { s with cuda := rest } else none
  | .waitDone =>
      match s.wait with
      | [] => none
      | chunkId :: rest =>
          if s.cuda.all fun task => task.chunkId ≠ chunkId then some { s with wait := rest } else none
  | .fault => some { s with aborted := some .call }

/-- The system: nothing moves in a process that has ended. -/
def next (t : Turn) (s : Pipeline) : Option Pipeline :=
  if s.aborted.isSome then none else s.turn pageSize args t

end

end Pipeline

end InstantTensor
