/-
# `InstantTensor.Executor` — the executor of tasks

`ExecutorCore` with `FunctionWorkerDriver` workers: a submitter puts tasks into a queue, workers
run them and put results into a second queue, and a reaper takes results by the ids of their
tasks, caching those that come before theirs.  Both queues are bounded first-in first-out
queues whose operations are atomic; a push into a full queue waits.

One move is one operation on a queue or what a thread does between two of them.  What a
payload returns is decided from outside (`outcome`, or `none` if it throws, which ends the process).

`ticket`, `task`, `stops`, `submitted`, `ran` and `answers` are not in the source: they number the
submissions, say which task a result is of, and record, newest first, the submissions, the
payloads run with what they returned, and the calls of the reaper with what they returned.
-/
import InstantTensor.Lib.Words

namespace InstantTensor

def EXECUTOR_STOP_REQUEST_ID : ℤ := -1

/-- `Loader::next_executor_request_id`: the id to use next. -/
def nextExecutorRequestId (requestId : ℤ) : ℤ :=
  toInt ((((requestId % 2 ^ 32).toNat + 1) % 2 ^ 32) &&& 0x7fffffff)

structure ExecutorTaskItem (Payload : Type) where
  requestId : ℤ
  needsResult : Bool
  payload : Option Payload
  ticket : ℕ

structure ExecutorResultItem (Payload Result : Type) where
  requestId : ℤ
  value : Result
  task : ExecutorTaskItem Payload

section
variable {Payload Result : Type}

def ExecutorTaskItem.makeStop : ExecutorTaskItem Payload where
  requestId := EXECUTOR_STOP_REQUEST_ID
  needsResult := false
  payload := none
  ticket := 0

def ExecutorTaskItem.isStop (t : ExecutorTaskItem Payload) : Bool :=
  t.requestId = EXECUTOR_STOP_REQUEST_ID

/-! ## Workers -/

structure FunctionWorkerDriver (Payload : Type) where
  pendingTask : Option (ExecutorTaskItem Payload) := none

namespace FunctionWorkerDriver

def canAddTask (d : FunctionWorkerDriver Payload) : Bool := !d.pendingTask.isSome

def addTask (task : ExecutorTaskItem Payload) (d : FunctionWorkerDriver Payload) :
    FunctionWorkerDriver Payload :=
  { d with pendingTask := some task }

def hasPendingTasks (d : FunctionWorkerDriver Payload) : Bool := d.pendingTask.isSome

/-- `process_tasks`: the results, and the payloads run. -/
def processTasks (outcome : Option Result) (d : FunctionWorkerDriver Payload) :
    Option (List (ExecutorResultItem Payload Result) × List (ExecutorTaskItem Payload × Result) ×
      FunctionWorkerDriver Payload) :=
  match d.pendingTask with
  | none => some ([], [], d)
  | some task => do
      let result ← outcome
      if !task.needsResult then
        return ([], [(task, result)], { d with pendingTask := none })
      return ([{ requestId := task.requestId, value := result, task }], [(task, result)],
        { d with pendingTask := none })

end FunctionWorkerDriver

/-- Where a worker is in `worker_loop`. -/
inductive WorkerLoop (Payload Result : Type) where
  /-- Before the condition of the inner loop. -/
  | popping (receivedTask : Bool)
  /-- Behind the inner loop. -/
  | popped (receivedTask : Bool)
  /-- The results to be pushed. -/
  | pushing (resultItems : List (ExecutorResultItem Payload Result))
  | returned

structure Worker (Payload Result : Type) where
  driver : FunctionWorkerDriver Payload := {}
  loop : WorkerLoop Payload Result := .popping false
  stops : ℕ := 0

/-! ## The executor -/

inductive ReaperCall where
  | ready
  | wait
  | tryReap
  | reap
  /-- `reap` without a place for the result. -/
  | reapVoid
deriving DecidableEq, Repr

/-- What a call of the reaper returned, and the result it took. -/
structure Answer (Payload Result : Type) where
  call : ReaperCall
  requestId : ℤ
  returned : Bool
  taken : Option (ExecutorResultItem Payload Result)

structure Executor (Payload Result : Type) where
  taskQueue : List (ExecutorTaskItem Payload) := []
  resultQueue : List (ExecutorResultItem Payload Result) := []
  completedResults : List (ExecutorResultItem Payload Result) := []
  started : Bool := false
  stopRequested : Bool := false
  workerCount : ℕ := 0
  workers : List (Worker Payload Result) := []
  /-- The stop items that `stop` still has to push. -/
  stopping : ℕ := 0
  /-- The call of the reaper in progress, which is draining the result queue. -/
  reaper : Option (ReaperCall × ℤ) := none
  /-- A payload threw. -/
  terminated : Bool := false
  submitted : List (ExecutorTaskItem Payload) := []
  ran : List (ExecutorTaskItem Payload × Result) := []
  answers : List (Answer Payload Result) := []

inductive ExecutorMove (Payload Result : Type) where
  | start (numWorkers : ℕ)
  | submit (requestId : ℤ) (payload : Payload) (needsResult : Bool)
  | stop
  | pushStop
  | work (worker : ℕ) (outcome : Option Result)
  | call (c : ReaperCall) (requestId : ℤ)
  | drain

namespace Executor

variable (taskQueueCapacity resultQueueCapacity : ℕ)

/-! ## The submitter -/

/-- `start`; an executor that was started or stopped stays as it is. -/
def start (numWorkers : ℕ) (s : Executor Payload Result) : Executor Payload Result :=
  if s.started then s
  else if s.stopRequested then s
  else
    let numWorkers := if numWorkers = 0 then 1 else numWorkers
    { s with
      started := true
      workerCount := numWorkers
      workers := List.replicate numWorkers {} }

/-- `submit`; where it throws, the executor stays as it is. -/
def submit (requestId : ℤ) (payload : Payload) (needsResult : Bool) (s : Executor Payload Result) :
    Option (Executor Payload Result) :=
  if requestId = EXECUTOR_STOP_REQUEST_ID then some s
  else if !s.started then some s
  else if s.stopRequested then some s
  else
    let task : ExecutorTaskItem Payload :=
      { requestId, needsResult, payload := some payload, ticket := s.submitted.length }
    if taskQueueCapacity ≤ s.taskQueue.length then none
    else some { s with
      taskQueue := s.taskQueue ++ [task]
      submitted := task :: s.submitted }

/-- `stop`, up to its loop. -/
def stop (s : Executor Payload Result) : Executor Payload Result :=
  if !s.started || s.stopRequested then s
  else { s with stopRequested := true, stopping := s.workerCount }

/-- One turn of the loop of `stop`. -/
def pushStop (s : Executor Payload Result) : Option (Executor Payload Result) :=
  match s.stopping with
  | 0 => none
  | n + 1 =>
      if taskQueueCapacity ≤ s.taskQueue.length then none
      else some { s with
        taskQueue := s.taskQueue ++ [ExecutorTaskItem.makeStop]
        stopping := n }

/-! ## The workers -/

/-- A step of worker `k` through `worker_loop`. -/
def workerLoop (k : ℕ) (outcome : Option Result) (s : Executor Payload Result) :
    Option (Executor Payload Result) := do
  let w ← s.workers[k]?
  match w.loop with
  | .popping receivedTask =>
      if w.driver.canAddTask then
        match s.taskQueue with
        | [] => some { s with workers := s.workers.set k { w with loop := .popped receivedTask } }
        | task :: taskQueue =>
            if task.isStop then
              some { s with
                taskQueue
                workers := s.workers.set k { w with loop := .returned, stops := w.stops + 1 } }
            else
              some { s with
                taskQueue
                workers := s.workers.set k
                  { w with driver := w.driver.addTask task, loop := .popping true } }
      else some { s with workers := s.workers.set k { w with loop := .popped receivedTask } }
  | .popped receivedTask =>
      if !receivedTask && !w.driver.hasPendingTasks then
        some { s with workers := s.workers.set k { w with loop := .popping false } }
      else
        match w.driver.processTasks outcome with
        | none => some { s with terminated := true }
        | some (resultItems, ran, driver) =>
            some { s with
              workers := s.workers.set k { w with driver, loop := .pushing resultItems }
              ran := ran ++ s.ran }
  | .pushing [] => some { s with workers := s.workers.set k { w with loop := .popping false } }
  | .pushing (resultItem :: resultItems) =>
      if resultQueueCapacity ≤ s.resultQueue.length then none
      else some { s with
        resultQueue := s.resultQueue ++ [resultItem]
        workers := s.workers.set k { w with loop := .pushing resultItems } }
  | .returned => none

/-! ## The reaper -/

/-- `completed_results.find`. -/
def findCached (requestId : ℤ) (s : Executor Payload Result) :
    Option (ExecutorResultItem Payload Result) :=
  s.completedResults.find? (·.requestId = requestId)

/-- `completed_results.emplace`, which keeps what is there. -/
def emplace (resultItem : ExecutorResultItem Payload Result) (s : Executor Payload Result) :
    Executor Payload Result :=
  if (s.findCached resultItem.requestId).isSome then s
  else { s with completedResults := resultItem :: s.completedResults }

/-- `completed_results.erase`. -/
def eraseCached (requestId : ℤ) (s : Executor Payload Result) : Executor Payload Result :=
  { s with completedResults := s.completedResults.eraseP (·.requestId = requestId) }

/-- The call in progress returns. -/
def answer (c : ReaperCall) (requestId : ℤ) (returned : Bool)
    (taken : Option (ExecutorResultItem Payload Result)) (s : Executor Payload Result) :
    Executor Payload Result :=
  { s with
    reaper := none
    answers := { call := c, requestId, returned, taken } :: s.answers }

/-- A call of the reaper, up to draining the result queue. -/
def enter (c : ReaperCall) (requestId : ℤ) (s : Executor Payload Result) :
    Executor Payload Result :=
  match s.findCached requestId with
  | none => { s with reaper := some (c, requestId) }
  | some resultItem =>
      match c with
      | .ready | .wait => s.answer c requestId true none
      | .tryReap | .reap | .reapVoid =>
          (s.eraseCached requestId).answer c requestId true (some resultItem)

/-- One turn of `cache_until_ready` or `take_until_ready`, and what its caller does where these
return. -/
def drain (c : ReaperCall) (requestId : ℤ) (s : Executor Payload Result) :
    Executor Payload Result :=
  match s.resultQueue with
  | [] =>
      match c with
      | .ready | .tryReap => s.answer c requestId false none
      | .wait => s.enter c requestId
      | .reap | .reapVoid => s
  | resultItem :: resultQueue =>
      let s := { s with resultQueue }
      match c with
      | .ready | .wait =>
          let s := s.emplace resultItem
          if resultItem.requestId = requestId then s.answer c requestId true none else s
      | .tryReap | .reap =>
          if resultItem.requestId = requestId then s.answer c requestId true (some resultItem)
          else s.emplace resultItem
      | .reapVoid =>
          let s := s.emplace resultItem
          if resultItem.requestId = requestId then
            (s.eraseCached requestId).answer c requestId true (s.findCached requestId)
          else s

/-! ## Moves -/

/-- The submitter, a worker or the reaper moves; calls of one thread come one after the other. -/
def step (a : ExecutorMove Payload Result) (s : Executor Payload Result) :
    Option (Executor Payload Result) :=
  if s.terminated then none
  else
    match a with
    | .start numWorkers => if s.stopping ≠ 0 then none else some (s.start numWorkers)
    | .submit requestId payload needsResult =>
        if s.stopping ≠ 0 then none
        else s.submit taskQueueCapacity requestId payload needsResult
    | .stop => if s.stopping ≠ 0 then none else some s.stop
    | .pushStop => s.pushStop taskQueueCapacity
    | .work k outcome => s.workerLoop resultQueueCapacity k outcome
    | .call c requestId => if s.reaper.isSome then none else some (s.enter c requestId)
    | .drain =>
        match s.reaper with
        | none => none
        | some (c, requestId) => some (s.drain c requestId)

end Executor

end

end InstantTensor
