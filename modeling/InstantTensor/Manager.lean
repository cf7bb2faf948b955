/-
# `InstantTensor.Manager` — the manager of the loaders

`LoaderManager` is shared by all loaders: a table from handles to the queues of their threads, the
next handle, and one device index.  A call puts a request into a queue and takes responses
until that of its request comes; meanwhile the loader threads serve their queues at any time.
Python calls come one after the other, so at most one call is in progress (`pending`).

`operator[]` on the table inserts an entry without queues where there is none, and to use such
a queue is to dereference a null pointer; an exception in a loader thread ends the process.  In
both cases the system is `crashed` and takes no further turn.

`log`, `computed`, and the `deviceIdx` of a thread are not in the source; they record, newest
first, the calls with their results, what a thread answered to which request, and what the handle
was opened with.  Handles and request numbers are counted without bound.
-/
import Mathlib.Logic.Function.Basic
import InstantTensor.Layout
import InstantTensor.Lib.Runs
import InstantTensor.Lib.Words

namespace InstantTensor

/-! ## Requests and responses -/

inductive Op where
  | OPEN (groupCommunicator : ℕ) (args : OpenArgs)
  | CLOSE
  | GET_TENSOR_PTR (tensorIndex : ℕ)
deriving DecidableEq, Repr

structure RPCRequest where
  id : ℤ
  op : Op
deriving DecidableEq, Repr

/-- What a `std::any` of a response holds. -/
inductive Reply where
  | empty
  | pointer (ptr : ℕ)
deriving DecidableEq, Repr

structure RPCResponse where
  id : ℤ
  result : Reply
deriving DecidableEq, Repr

/-! ## Loader threads -/

/-- A loader thread with its two queues, as far as its answers need it. -/
structure LoaderThread where
  deviceIdx : ℤ
  deviceBuffer : ℕ := 0
  tensors : List TensorMetadate := []
  currentTensorIndex : ℕ := 0
  stop : Bool := false
  inputQueue : List RPCRequest := []
  outputQueue : List RPCResponse := []
  computed : List (RPCRequest × Reply) := []
deriving DecidableEq, Repr

section
variable (pageSize : ℕ)

/-- `Loader::dispatch`, with the address `cudaMalloc` gives to `OPEN`; where it throws, `none`. -/
def LoaderThread.dispatch (deviceBuffer : ℕ) (t : LoaderThread) : Op → Option (LoaderThread × Reply)
  | .OPEN groupCommunicator args =>
      if 1 < args.worldSize ∧ groupCommunicator = 0 then none
      else if args.worldSize = 1 ∧ groupCommunicator ≠ 0 then none
      else
        match computeLayout (initBuffer pageSize args) args.tensorOffsets with
        | .error _ => none
        | .ok layout => some ({ t with deviceBuffer, tensors := layout.tensors }, .empty)
  | .CLOSE => some ({ t with stop := true }, .empty)
  | .GET_TENSOR_PTR index =>
      if t.tensors.length ≤ index then none
      else if index < t.currentTensorIndex then none
      else some ({ t with currentTensorIndex := index },
        .pointer (t.deviceBuffer + (t.tensors.getD index default).deviceBufferOffset))

/-- One turn of `run`: a request is popped, and its response pushed.  `outcome` is `none` if
something below `dispatch` throws, or `try_step` between two requests. -/
def LoaderThread.serve (outcome : Option ℕ) (t : LoaderThread) : Option (Option LoaderThread) :=
  if t.stop then none
  else
    match outcome, t.inputQueue with
    | none, _ => some none
    | some _, [] => none
    | some deviceBuffer, m :: inputQueue => some do
        let (t, result) ← t.dispatch pageSize deviceBuffer m.op
        return { t with
          inputQueue
          outputQueue := t.outputQueue ++ [{ id := m.id, result }]
          computed := (m, result) :: t.computed }

end

/-! ## Calls -/

inductive ManagerError where
  /-- "cuda_binding: CUDA not found in process. …" -/
  | cudaNotFound
  /-- "nccl_binding: process_group non-zero but NCCL not found in process. …" -/
  | ncclNotFound
  /-- `NCCL_CHECK` of `ncclCommUserRank` or `ncclCommCount`. -/
  | ncclQuery
  /-- "Internal error: manager is not initialized" -/
  | notInitialized
  /-- `std::bad_any_cast` -/
  | badAnyCast
deriving DecidableEq, Repr

/-- The arguments of `open`, and what its steps meet; `rank` and `worldSize` of `args` are not
used. -/
structure OpenCall where
  deviceIdx : ℤ
  processGroup : ℕ
  args : OpenArgs
  cudaFound : Bool
  ncclFound : Bool
  userRank : Option ℕ
  commCount : Option ℕ
deriving DecidableEq, Repr

/-- The steps of `open` that can fail: the rank and the size of the group. -/
def OpenCall.group (c : OpenCall) : Except ManagerError (ℕ × ℕ) :=
  if !c.cudaFound then .error .cudaNotFound
  else if c.processGroup ≠ 0 then
    if !c.ncclFound then .error .ncclNotFound
    else
      match c.userRank, c.commCount with
      | some rank, some worldSize => .ok (rank, worldSize)
      | _, _ => .error .ncclQuery
  else .ok (0, 1)

/-- One tensor of four bytes is opened, by one process. -/
def openOn (deviceIdx : ℤ) : OpenCall where
  deviceIdx := deviceIdx
  processGroup := 0
  args := {
    rank := 0
    worldSize := 1
    bufferSize := 2 ^ 20
    chunkSize := 2 ^ 16
    numThreads := 1
    ioDepth := 3
    backend := .URING
    tensorOffsets := [(0, 100), (0, 104)] }
  cudaFound := true
  ncclFound := true
  userRank := none
  commCount := none

inductive Call where
  | open (c : OpenCall)
  | getDLTensor (loaderHandle : ℤ) (tensorIndex : ℤ) (size : ℕ)
  | close (loaderHandle : ℤ)
deriving DecidableEq, Repr

/-- The tensor in a capsule. -/
structure DLTensor where
  data : ℕ
  deviceId : ℤ
  shape : List ℤ
  strides : List ℤ
deriving DecidableEq, Repr

/-- Each stride is the product of the lengths behind it. -/
def contiguousStrides : List ℤ → List ℤ
  | [] => []
  | _ :: shape => shape.prod :: contiguousStrides shape

/-- `pack_dlpack`. -/
def packDLPack (ptr : ℕ) (shape : List ℤ) (deviceId : ℤ) : DLTensor where
  data := ptr
  deviceId := deviceId
  shape := shape
  strides := contiguousStrides shape

inductive CallResult where
  | returned (loaderHandle : ℤ)
  | capsule (tensor : DLTensor)
  | closed
  | raised (e : ManagerError)
  | crashed
deriving DecidableEq, Repr

/-- A call that is over; `reqId` is the number of its request, if it made one. -/
structure Record where
  call : Call
  reqId : Option ℤ
  result : CallResult
deriving DecidableEq, Repr

/-! ## The manager -/

/-- `queues` is the thread at the other end, if the pointers are not null. -/
structure RPCHandle where
  latestReqId : ℤ := 0
  queues : Option ℕ := none
deriving DecidableEq, Repr

structure LoaderManager where
  loaderHandleToQueue : ℤ → Option RPCHandle := fun _ => none
  loaderIdIter : ℤ := 0
  deviceIdx : ℤ := 0

/-- `operator[]`, which inserts where there is nothing. -/
def LoaderManager.lookup (m : LoaderManager) (h : ℤ) : RPCHandle := (m.loaderHandleToQueue h).getD {}

/-- A call that waits for the response to its request. -/
structure Pending where
  call : Call
  loaderHandle : ℤ
  reqId : ℤ
deriving DecidableEq, Repr

structure System where
  manager : Option LoaderManager := none
  threads : List LoaderThread := []
  pending : Option Pending := none
  crashed : Bool := false
  log : List Record := []

inductive Move where
  | call (c : Call)
  | serve (thread : ℕ) (outcome : Option ℕ)
  | response

namespace System

/-- `LoaderManager::call`, on behalf of `c`. -/
def callLoader (m : LoaderManager) (c : Call) (h : ℤ) (op : Op) (s : System) : System :=
  let handle := m.lookup h
  let reqId := handle.latestReqId + 1
  let m := { m with
    loaderHandleToQueue := Function.update m.loaderHandleToQueue h
      (some { handle with latestReqId := reqId }) }
  match handle.queues with
  | none => { s with
      manager := some m
      crashed := true
      log := { call := c, reqId := some reqId, result := .crashed } :: s.log }
  | some k => { s with
      manager := some m
      threads := s.threads.modify k fun t =>
        { t with inputQueue := t.inputQueue ++ [{ id := reqId, op }] }
      pending := some { call := c, loaderHandle := h, reqId } }

/-- The call raises. -/
def raise (c : Call) (e : ManagerError) (s : System) : System :=
  { s with log := { call := c, reqId := none, result := .raised e } :: s.log }

/-- `open`, up to `get_result`. -/
def openLoader (c : OpenCall) (s : System) : System :=
  let m : LoaderManager := s.manager.getD {}
  let h := m.loaderIdIter
  let m := { m with
    deviceIdx := c.deviceIdx
    loaderIdIter := h + 1
    loaderHandleToQueue := Function.update m.loaderHandleToQueue h
      (some { latestReqId := 0, queues := some s.threads.length }) }
  let s := { s with
    manager := some m
    threads := s.threads ++ [({ deviceIdx := c.deviceIdx } : LoaderThread)] }
  match c.group with
  | .error e => s.raise (.open c) e
  | .ok (rank, worldSize) =>
      s.callLoader m (.open c) h (.OPEN c.processGroup { c.args with rank, worldSize })

/-- `(size_t)tensor_index`. -/
def toSizeT (x : ℤ) : ℕ := (x % 2 ^ 64).toNat

/-- A call from Python, up to `get_result`. -/
def start (c : Call) (s : System) : System :=
  match c with
  | .open c => s.openLoader c
  | .getDLTensor h tensorIndex _ =>
      match s.manager with
      | none => s.raise c .notInitialized
      | some m => s.callLoader m c h (.GET_TENSOR_PTR (toSizeT tensorIndex))
  | .close h =>
      match s.manager with
      | none => s.raise c .notInitialized
      | some m => s.callLoader m c h .CLOSE

/-- The end of a call, once its response is there. -/
def finish (m : LoaderManager) (p : Pending) (reply : Reply) (s : System) : System :=
  let done (m : LoaderManager) (result : CallResult) : System := { s with
    manager := some m
    pending := none
    log := { call := p.call, reqId := some p.reqId, result } :: s.log }
  match p.call with
  | .open _ => done m (.returned p.loaderHandle)
  | .getDLTensor _ _ size =>
      match reply with
      | .pointer dataPtr => done m (.capsule (packDLPack dataPtr [toSigned size] m.deviceIdx))
      | .empty => done m (.raised .badAnyCast)
  | .close h =>
      done { m with loaderHandleToQueue := Function.update m.loaderHandleToQueue h none } .closed

/-- One turn of the loop of `get_result`: a response with another number is dropped. -/
def getResult (s : System) : Option System := do
  let p ← s.pending
  let m ← s.manager
  let k ← (m.lookup p.loaderHandle).queues
  let t ← s.threads[k]?
  match t.outputQueue with
  | [] => none
  | response :: outputQueue =>
      let s := { s with threads := s.threads.set k { t with outputQueue } }
      if response.id ≠ p.reqId then some s else some (s.finish m p response.result)

/-- What happens next: a call begins, a thread serves a request, or the call in progress takes a
response. -/
def step (pageSize : ℕ) (a : Move) (s : System) : Option System :=
  if s.crashed then none
  else
    match a with
    | .call c => if s.pending.isSome then none else some (s.start c)
    | .serve k outcome => do
        let t ← s.threads[k]?
        match ← t.serve pageSize outcome with
        | none => some { s with crashed := true }
        | some t => some { s with threads := s.threads.set k t }
    | .response => s.getResult

end System

end InstantTensor
