/-
# `InstantTensor.Ranks` — all processes of a group, with what is in their buffers

`InstantTensor.Pipeline` follows the reads of one process and leaves out the bytes.  Here a
rank is such a process together with its host and device buffer and with what has been queued on
its GPU, and the group is all ranks, any of which may move next (`Ranks.next`).

A read has a length that the kernel fills at leisure: while it is in flight any part of its
destination may change (`transfer`), and when it completes, the bytes of the file it
returned are there.  The task of `cuda_thread` only queues the copy to the device on
`cuda_stream` and the all-gather on `nccl_stream`.  Each stream executes in order; the all-gather of a
chunk waits for its copy, and the task of `wait_thread` for both.

NCCL matches the calls of the ranks by their order alone: the `k`-th all-gather of a rank
receives what each rank sends in its `k`-th, whatever chunk that is.  A rank sends at one moment
and receives at another, when all ranks have sent; its call is over when it has received.
-/
import InstantTensor.Tiling
import InstantTensor.Turns

namespace InstantTensor

/-! ## The members of a group -/

/-- What rank `r` opens, with the backend it has selected. -/
def Load.atRank (l : Load) (backend : Backend) (r : ℕ) : Load where
  pageSize := l.pageSize
  args := { l.args with rank := r, backend }
  page_pos := l.page_pos
  admitted := ⟨l.admitted.chunkSize_pos, l.admitted.numThreads_pos, l.admitted.ioDepth_pos,
    l.admitted.worldSize_pos⟩
  valid := l.valid
  room := l.room

structure Rank (α : Type) where
  pipeline : Pipeline
  memory : RankMemory α
  /-- The copies queued on `cuda_stream`, oldest first. -/
  copies : List ChunkIOParams
  /-- The all-gathers queued on `nccl_stream`, oldest first. -/
  gathers : List ChunkIOParams
  /-- The all-gathers that are over, oldest first. -/
  gathered : List ChunkIOParams
  /-- What the rank has sent, one piece for each all-gather. -/
  sent : List (ℕ → α)

inductive RankTurn (α : Type) where
  /-- A thread of the process moves; `junk` is what is not the file's in a completed read, and what
  is left of the buffers when they are freed. -/
  | thread (t : Turn) (junk : ℕ → α)
  /-- The destination of a read in flight changes. -/
  | transfer (r : Read) (junk : ℕ → α)
  /-- `cuda_stream` executes its next copy. -/
  | copy
  /-- `nccl_stream` has come to its next all-gather and sends. -/
  | send
  | receive

section
variable [IoEvent] {α : Type}

/-- What a read that has returned `result` leaves behind. -/
def Read.landed (file : ℕ → ℕ → α) (r : Read) (result : ℤ) : Write α where
  addr := r.bufferOffset
  len := min r.size result.toNat
  padded := r.request
  data := fun b => file r.fileIndex (r.fileOffset + b)

/-- The buffer the reads of a backend go to. -/
def RankMemory.put (backend : Backend) (w : Write α) (junk : ℕ → α) (m : RankMemory α) :
    RankMemory α :=
  match backend with
  | Backend.CUFILE => { m with device := w.apply junk m.device }
  | _ => { m with host := w.apply junk m.host }

/-- `ncclAllGather` at the receiving rank: the pieces in the order of the ranks. -/
def RankMemory.gather (worldSize : ℕ) (p : ChunkIOParams) (pieces : ℕ → ℕ → α) (m : RankMemory α) :
    RankMemory α :=
  { m with device := allGather worldSize p.allDst p.paddedRankSize (fun _ => 0) pieces m.device }

namespace Rank

/-- `cudaEventSynchronize`: the task of `wait_thread` returns when the streams are through with its
chunk. -/
def synchronized (s : Rank α) : Turn → Bool
  | .waitDone =>
      match s.pipeline.wait with
      | [] => true
      | chunkId :: _ => (s.copies ++ s.gathers).all fun p => p.chunkId ≠ chunkId
  | _ => true

/-- The end of `cuda_func`: what the task at the head of `cuda_thread` queues on the streams. -/
def launch (l : Load) (s : Rank α) : Rank α :=
  match s.pipeline.cuda with
  | [] => s
  | task :: _ =>
      match s.pipeline.loader.chunks[task.chunkId.toNat]? with
      | none => s
      | some chunk =>
          let p := chunkIOParams l.geometry l.args task.chunkId chunk
          { s with
            copies := if l.args.backend = Backend.CUFILE then s.copies else s.copies ++ [p]
            gathers := if 1 < l.args.worldSize then s.gathers ++ [p] else s.gathers }

/-- What a turn of a thread does outside the process; `pipeline` is where the process gets to. -/
def effect (l : Load) (file : ℕ → ℕ → α) (junk : ℕ → α) (t : Turn) (pipeline : Pipeline)
    (s : Rank α) : Rank α :=
  match t with
  | .loader _ =>
      -- `destroy_buffer`
      if pipeline.loader.stop && !s.pipeline.loader.stop then
        { s with memory := { host := junk, device := junk } }
      else s
  | .complete r result =>
      { s with memory := s.memory.put l.args.backend (r.landed file result) junk }
  | .cudaDone => s.launch l
  | _ => s

/-- One turn of a rank; `sent` are the pieces the ranks have sent. -/
def next (l : Load) (file : ℕ → ℕ → α) (sent : ℕ → List (ℕ → α)) (s : Rank α) :
    RankTurn α → Option (Rank α)
  | .thread t junk =>
      if s.synchronized t then
        (Pipeline.next l.pageSize l.args t s.pipeline).map fun pipeline =>
          { s.effect l file junk t pipeline with pipeline }
      else none
  | .transfer r junk =>
      if r ∈ s.pipeline.inFlight then
        some { s with memory := s.memory.put l.args.backend (r.landed file 0) junk }
      else none
  | .copy =>
      match s.copies with
      | [] => none
      | p :: copies => some { s with copies, memory := s.memory.copy l.args p }
  | .send =>
      match s.gathers with
      | [] => none
      | p :: _ =>
          -- `cudaStreamWaitEvent` on the copy, and one piece for each call
          if s.sent.length = s.gathered.length ∧ ∀ q ∈ s.copies, q.chunkId ≠ p.chunkId then
            some { s with sent := s.sent ++ [fun i => s.memory.device (p.rankDst + i)] }
          else none
  | .receive =>
      match s.gathers with
      | [] => none
      | p :: gathers =>
          let k := s.gathered.length
          if ∀ q < l.args.worldSize, k < (sent q).length then
            some { s with
              gathers
              gathered := s.gathered ++ [p]
              memory := s.memory.gather l.args.worldSize p
                (fun q => (sent q).getD k fun i => s.memory.device (p.allDst + i)) }
          else none

end Rank

/-- The group: some rank makes a turn. -/
def Ranks.next (l : Load) (backends : ℕ → Backend) (file : ℕ → ℕ → α) (t : ℕ × RankTurn α)
    (s : ℕ → Rank α) : Option (ℕ → Rank α) :=
  if t.1 < l.args.worldSize then
    ((s t.1).next (l.atRank (backends t.1) t.1) file (fun q => (s q).sent) t.2).map
      (Function.update s t.1)
  else none

/-- The group in front of the requests of its ranks. -/
def Load.ranks (l : Load) (backends : ℕ → Backend) (gets : ℕ → List ℕ) (memory : ℕ → RankMemory α)
    (r : ℕ) : Rank α where
  pipeline := (l.atRank (backends r) r).pipeline (gets r)
  memory := memory r
  copies := []
  gathers := []
  gathered := []
  sent := []

end

end InstantTensor
