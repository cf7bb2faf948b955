/-
# `InstantTensor.ExecutorSteps` — what a move of the executor can do

The moves are said once (`Moved`, and `Worked` for a step of a worker), and what holds of the
executor is derived from that.  The reaper changes nothing but the result queue, the cache and
its own calls.
-/
import InstantTensor.Executor

namespace InstantTensor

section
variable {Payload Result : Type}

def Worker.tasks (w : Worker Payload Result) : List (ExecutorTaskItem Payload) :=
  w.driver.pendingTask.toList

def Worker.results (w : Worker Payload Result) : List (ExecutorResultItem Payload Result) :=
  match w.loop with
  | .pushing resultItems => resultItems
  | _ => []

/-- The worker left `worker_loop`. -/
def Worker.Returned (w : Worker Payload Result) : Prop := w.loop = .returned

/-- A result under its task, with its label. -/
def ExecutorResultItem.entry (x : ExecutorResultItem Payload Result) :
    ExecutorTaskItem Payload × ℤ × Result :=
  (x.task, x.requestId, x.value)

namespace Executor

/-! ## What a worker can do -/

/-- A step of worker `k`. -/
inductive Worked (s : Executor Payload Result) (k : ℕ) : Executor Payload Result → Prop
  /-- It goes on with what it has. -/
  | kept {w : Worker Payload Result} {loop : WorkerLoop Payload Result} :
      s.workers[k]? = some w → ¬ w.Returned → ¬ ({ w with loop } : Worker _ _).Returned →
      ({ w with loop } : Worker _ _).tasks = w.tasks →
      ({ w with loop } : Worker _ _).results = w.results →
      Worked s k { s with workers := s.workers.set k { w with loop } }
  | stopped {w : Worker Payload Result} {task : ExecutorTaskItem Payload}
      {taskQueue : List (ExecutorTaskItem Payload)} :
      s.workers[k]? = some w → ¬ w.Returned → w.tasks = [] → w.results = [] →
      s.taskQueue = task :: taskQueue → task.isStop = true →
      Worked s k { s with
        taskQueue
        workers := s.workers.set k { w with loop := .returned, stops := w.stops + 1 } }
  | added {w : Worker Payload Result} {task : ExecutorTaskItem Payload}
      {taskQueue : List (ExecutorTaskItem Payload)} :
      s.workers[k]? = some w → ¬ w.Returned → w.tasks = [] → w.results = [] →
      s.taskQueue = task :: taskQueue → task.isStop = false →
      Worked s k { s with
        taskQueue
        workers := s.workers.set k
          { w with driver := w.driver.addTask task, loop := .popping true } }
  | ran {w : Worker Payload Result} {receivedTask : Bool} {task : ExecutorTaskItem Payload}
      {value : Result} {resultItems : List (ExecutorResultItem Payload Result)} :
      s.workers[k]? = some w → w.loop = .popped receivedTask →
      w.driver.pendingTask = some task → resultItems.map ExecutorResultItem.entry =
        [(task, task.requestId, value)].filter (·.1.needsResult) →
      Worked s k { s with
        workers := s.workers.set k { w with
          driver := { w.driver with pendingTask := none }, loop := .pushing resultItems }
        ran := (task, value) :: s.ran }
  | threw : Worked s k { s with terminated := true }
  | pushed {w : Worker Payload Result} {x : ExecutorResultItem Payload Result}
      {resultItems : List (ExecutorResultItem Payload Result)} :
      s.workers[k]? = some w → w.loop = .pushing (x :: resultItems) →
      Worked s k { s with
        resultQueue := s.resultQueue ++ [x]
        workers := s.workers.set k { w with loop := .pushing resultItems } }

theorem workerLoop_worked {s s' : Executor Payload Result} {resultQueueCapacity k : ℕ}
    {outcome : Option Result} (h : s.workerLoop resultQueueCapacity k outcome = some s') :
    s.Worked k s' := by
  obtain ⟨w, hw, h⟩ := Option.bind_eq_some_iff.mp h
  cases hloop : w.loop with
  | popping receivedTask =>
      have hrunning : ¬ w.Returned := by simp [Worker.Returned, hloop]
      have hresults : w.results = [] := by rw [Worker.results, hloop]
      simp only [hloop] at h
      split at h
      · next hcan =>
        have hidle : w.tasks = [] := by
          simpa [FunctionWorkerDriver.canAddTask, Worker.tasks] using hcan
        split at h
        · obtain rfl := Option.some.inj h
          exact .kept hw hrunning nofun rfl hresults.symm
        · next task taskQueue hqueue =>
          split at h
          · next hstop =>
            obtain rfl := Option.some.inj h
            exact .stopped hw hrunning hidle hresults hqueue hstop
          · next hstop =>
            obtain rfl := Option.some.inj h
            exact .added hw hrunning hidle hresults hqueue (by simpa using hstop)
      · obtain rfl := Option.some.inj h
        exact .kept hw hrunning nofun rfl hresults.symm
  | popped receivedTask =>
      have hrunning : ¬ w.Returned := by simp [Worker.Returned, hloop]
      have hresults : w.results = [] := by rw [Worker.results, hloop]
      simp only [hloop] at h
      split at h
      · obtain rfl := Option.some.inj h
        exact .kept hw hrunning nofun rfl hresults.symm
      · cases htask : w.driver.pendingTask with
        | none =>
            simp only [FunctionWorkerDriver.processTasks, htask] at h
            obtain rfl := Option.some.inj h
            exact .kept hw hrunning nofun rfl hresults.symm
        | some task =>
            cases outcome with
            | none =>
                simp only [FunctionWorkerDriver.processTasks, htask] at h
                obtain rfl := Option.some.inj h
                exact .threw
            | some value =>
                simp only [FunctionWorkerDriver.processTasks, htask] at h
                cases hneeds : task.needsResult with
                | false =>
                    simp [hneeds] at h
                    obtain rfl := h
                    exact .ran hw hloop htask (by simp [hneeds])
                | true =>
                    simp [hneeds] at h
                    obtain rfl := h
                    exact .ran hw hloop htask (by simp [hneeds, ExecutorResultItem.entry])
  | pushing resultItems =>
      have hrunning : ¬ w.Returned := by simp [Worker.Returned, hloop]
      cases resultItems with
      | nil =>
          simp only [hloop] at h
          obtain rfl := Option.some.inj h
          exact .kept hw hrunning nofun rfl (by simp [Worker.results, hloop])
      | cons x resultItems =>
          simp only [hloop] at h
          split at h
          · cases h
          · obtain rfl := Option.some.inj h
            exact .pushed hw hloop
  | returned =>
      simp only [hloop] at h
      cases h

section
variable {s s' : Executor Payload Result}

/-! ## What the reaper leaves alone -/

theorem enter_frame (c : ReaperCall) (requestId : ℤ) (s : Executor Payload Result) :
    ∃ completedResults reaper answers,
      s.enter c requestId = { s with completedResults, reaper, answers } := by
  unfold enter
  split
  · exact ⟨_, _, _, rfl⟩
  · split <;> exact ⟨_, _, _, rfl⟩

theorem emplace_frame (x : ExecutorResultItem Payload Result) (s : Executor Payload Result) :
    ∃ completedResults, s.emplace x = { s with completedResults } := by
  unfold emplace
  split <;> exact ⟨_, rfl⟩

theorem drain_frame (c : ReaperCall) (requestId : ℤ) (s : Executor Payload Result) :
    ∃ resultQueue completedResults reaper answers, s.drain c requestId =
      { s with resultQueue, completedResults, reaper, answers } := by
  unfold drain
  split
  · split
    · exact ⟨_, _, _, _, rfl⟩
    · exact ⟨_, _, _, _, rfl⟩
    · obtain ⟨completedResults, reaper, answers, heq⟩ := enter_frame .wait requestId s
      exact ⟨_, _, _, _, heq⟩
    · exact ⟨_, _, _, _, rfl⟩
    · exact ⟨_, _, _, _, rfl⟩
  · next x resultQueue _ =>
    obtain ⟨completedResults, heq⟩ := emplace_frame x { s with resultQueue }
    simp only [heq]
    split <;> split <;> exact ⟨_, _, _, _, rfl⟩

/-! ## Moves -/

/-- What a move can do. -/
inductive Moved (s : Executor Payload Result) :
    ExecutorMove Payload Result → Executor Payload Result → Prop
  | started {numWorkers : ℕ} : Moved s (.start numWorkers) (s.start numWorkers)
  /-- `submit` throws. -/
  | refused {requestId : ℤ} {payload : Payload} {needsResult : Bool} :
      Moved s (.submit requestId payload needsResult) s
  | submitted {requestId : ℤ} {payload : Payload} {needsResult : Bool} :
      requestId ≠ EXECUTOR_STOP_REQUEST_ID → s.started = true → s.stopRequested = false →
      Moved s (.submit requestId payload needsResult) { s with
        taskQueue := s.taskQueue ++ [⟨requestId, needsResult, some payload, s.submitted.length⟩]
        submitted := ⟨requestId, needsResult, some payload, s.submitted.length⟩ :: s.submitted }
  | stopped : Moved s .stop s.stop
  | pushedStop {n : ℕ} : s.stopping = n + 1 →
      Moved s .pushStop { s with
        taskQueue := s.taskQueue ++ [ExecutorTaskItem.makeStop]
        stopping := n }
  | worked {k : ℕ} {outcome : Option Result} {s' : Executor Payload Result} :
      s.Worked k s' → Moved s (.work k outcome) s'
  | entered {c : ReaperCall} {requestId : ℤ} :
      Moved s (.call c requestId) (s.enter c requestId)
  | drained {c : ReaperCall} {requestId : ℤ} : Moved s .drain (s.drain c requestId)

theorem submit_moved {taskQueueCapacity : ℕ} {requestId : ℤ} {payload : Payload}
    {needsResult : Bool}
    (h : s.submit taskQueueCapacity requestId payload needsResult = some s') :
    s.Moved (.submit requestId payload needsResult) s' := by
  unfold submit at h
  split at h
  · obtain rfl := Option.some.inj h
    exact .refused
  · next hid =>
    split at h
    · obtain rfl := Option.some.inj h
      exact .refused
    · next hstarted =>
      split at h
      · obtain rfl := Option.some.inj h
        exact .refused
      · next hstop =>
        simp only at h
        split at h
        · cases h
        · obtain rfl := Option.some.inj h
          exact .submitted hid (by simpa using hstarted) (by simpa using hstop)

theorem pushStop_moved {taskQueueCapacity : ℕ} (h : s.pushStop taskQueueCapacity = some s') :
    s.Moved .pushStop s' := by
  unfold pushStop at h
  split at h
  · cases h
  · next n hn =>
    split at h
    · cases h
    · obtain rfl := Option.some.inj h
      exact .pushedStop hn

theorem step_moved {taskQueueCapacity resultQueueCapacity : ℕ} {a : ExecutorMove Payload Result}
    (h : step taskQueueCapacity resultQueueCapacity a s = some s') : s.Moved a s' := by
  unfold step at h
  split at h
  · cases h
  · cases a with
    | start numWorkers =>
        simp only at h
        split at h
        · cases h
        · obtain rfl := Option.some.inj h
          exact .started
    | submit requestId payload needsResult =>
        simp only at h
        split at h
        · cases h
        · exact submit_moved h
    | stop =>
        simp only at h
        split at h
        · cases h
        · obtain rfl := Option.some.inj h
          exact .stopped
    | pushStop => exact pushStop_moved h
    | work k outcome => exact .worked (workerLoop_worked h)
    | call c requestId =>
        simp only at h
        split at h
        · cases h
        · obtain rfl := Option.some.inj h
          exact .entered
    | drain =>
        simp only at h
        split at h
        · cases h
        · obtain rfl := Option.some.inj h
          exact .drained

end

end Executor

end

end InstantTensor
