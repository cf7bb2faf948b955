/-
# `InstantTensor.SingleThread` — an executor with one worker is a queue

`cuda_thread`, `wait_thread` and `last_page_reader_thread` are executors with one worker, and the loader
takes each for a queue of tasks: what is submitted goes behind the others, the first is the next to
be over, and a handle is done when its task is no longer in the queue.  `Executor.backlog` is that
queue, and `Executor.single_thread_queue` says that every move of the executor is one of the queue.

Handles are reaped in the order of their tasks, and then `completed_results` is never used
(`Executor.in_order_uncached`).
-/
import InstantTensor.Joining

namespace InstantTensor

section
variable {Payload Result : Type}

namespace Executor

/-! ## The queue -/

/-- The tasks that have not run, oldest first. -/
def unrun (s : Executor Payload Result) : List (ExecutorTaskItem Payload) :=
  s.workers.flatMap Worker.tasks ++ s.taskQueue.filter (!·.isStop)

/-- The tasks that are not over, oldest first: before those that have not run, the one whose
result has yet to be handed over. -/
def backlog (s : Executor Payload Result) : List (ExecutorTaskItem Payload) :=
  (s.workers.flatMap Worker.results).map ExecutorResultItem.task ++ s.unrun

/-- The tasks of the results on their way to the reaper, oldest first. -/
def lined (s : Executor Payload Result) : List (ExecutorTaskItem Payload) :=
  (s.resultQueue ++ s.workers.flatMap Worker.results).map ExecutorResultItem.task

section
variable {s s' : Executor Payload Result}

/-! ## One worker -/

theorem single_set (hsingle : s.workers.length ≤ 1) {k : ℕ} {w : Worker Payload Result}
    (hw : s.workers[k]? = some w) : s.workers = [w] ∧ ∀ w', s.workers.set k w' = [w'] := by
  obtain ⟨ws₁, ws₂, hsplit, hset⟩ := set_split hw
  rw [hsplit, List.length_append, List.length_cons] at hsingle
  obtain rfl := List.eq_nil_of_length_eq_zero (show ws₁.length = 0 by omega)
  obtain rfl := List.eq_nil_of_length_eq_zero (show ws₂.length = 0 by omega)
  exact ⟨hsplit, hset⟩

theorem unrun_single {w : Worker Payload Result} (h : s.workers = [w]) :
    s.unrun = w.tasks ++ s.taskQueue.filter (!·.isStop) := by
  rw [unrun, h, List.flatMap_singleton]

theorem backlog_single {w : Worker Payload Result} (h : s.workers = [w]) :
    s.backlog = w.results.map ExecutorResultItem.task ++
      (w.tasks ++ s.taskQueue.filter (!·.isStop)) := by
  rw [backlog, unrun_single h, h, List.flatMap_singleton]

theorem lined_single {w : Worker Payload Result} (h : s.workers = [w]) :
    s.lined = s.resultQueue.map ExecutorResultItem.task ++ w.results.map ExecutorResultItem.task := by
  rw [lined, h, List.flatMap_singleton, List.map_append]

/-- What the worker does to the queue: nothing, or its first task runs, or is over. -/
structure Served (s s' : Executor Payload Result) : Prop where
  single : s'.workers.length ≤ 1
  submitted : s'.submitted = s.submitted
  ran : s'.ran = s.ran ∧ s'.unrun = s.unrun ∧ s'.lined = s.lined ∨
    ∃ t v, s'.ran = (t, v) :: s.ran ∧ s.unrun = t :: s'.unrun ∧
      s'.lined = s.lined ++ [t].filter ExecutorTaskItem.needsResult
  backlog : s'.backlog = s.backlog ∨ ∃ t, s.backlog = t :: s'.backlog

/-- The worker keeps what it has, and so does the task queue but for stop items, or a task goes
from the task queue to the worker. -/
theorem Served.of_kept {w w' : Worker Payload Result} (hone : s.workers = [w])
    (hone' : s'.workers = [w']) (hsubmitted : s'.submitted = s.submitted) (hran : s'.ran = s.ran)
    (hqueue : s'.resultQueue = s.resultQueue)
    (htasks : w'.tasks ++ s'.taskQueue.filter (!·.isStop) = w.tasks ++ s.taskQueue.filter (!·.isStop))
    (hresults : w'.results = w.results) : s.Served s' := by
  refine ⟨?_, hsubmitted, .inl ⟨hran, ?_, ?_⟩, .inl ?_⟩
  · rw [hone']
    exact Nat.le_refl 1
  · rw [unrun_single hone, unrun_single hone', htasks]
  · rw [lined_single hone, lined_single hone', hqueue, hresults]
  · rw [backlog_single hone, backlog_single hone', htasks, hresults]

theorem Worked.served {k : ℕ} (h : s.Worked k s') (hsingle : s.workers.length ≤ 1) :
    s.Served s' := by
  cases h with
  | kept hw _ _ htasks hresults =>
      obtain ⟨hone, hset⟩ := single_set hsingle hw
      exact .of_kept hone (hset _) rfl rfl rfl (congrArg (· ++ _) htasks) hresults
  | stopped hw _ _ hresults hqueue hstop =>
      obtain ⟨hone, hset⟩ := single_set hsingle hw
      refine .of_kept hone (hset _) rfl rfl rfl ?_ hresults.symm
      rw [hqueue, List.filter_cons_of_neg (by simp [hstop])]
      rfl
  | added hw _ hidle hresults hqueue hstop =>
      obtain ⟨hone, hset⟩ := single_set hsingle hw
      refine .of_kept hone (hset _) rfl rfl rfl ?_ hresults.symm
      rw [hqueue, List.filter_cons_of_pos (by simp [hstop]), hidle]
      rfl
  | @ran w _ task value resultItems hw hloop htask hresults =>
      obtain ⟨hone, hset⟩ := single_set hsingle hw
      have htasks : w.tasks = [task] := by rw [Worker.tasks, htask]; rfl
      have hnone : w.results = [] := by rw [Worker.results, hloop]
      have hitems : resultItems.map ExecutorResultItem.task =
          [task].filter ExecutorTaskItem.needsResult := by
        have hmap := congrArg (List.map Prod.fst) hresults
        rw [List.map_map] at hmap
        refine hmap.trans ?_
        cases hneeds : task.needsResult <;> simp [hneeds]
      refine ⟨?_, rfl, .inr ⟨task, value, rfl, ?_, ?_⟩, ?_⟩
      · rw [List.length_set]
        exact hsingle
      · rw [unrun_single hone, unrun_single (hset _), htasks]
        rfl
      · rw [lined_single hone, lined_single (hset _), hnone, ← hitems, List.map_nil, List.append_nil]
        rfl
      · rw [backlog_single hone, backlog_single (hset _), hnone, htasks]
        simp only [Worker.results, hitems]
        cases hneeds : task.needsResult with
        | true =>
            left
            rw [List.filter_cons_of_pos hneeds]
            rfl
        | false =>
            right
            refine ⟨task, ?_⟩
            rw [List.filter_cons_of_neg (by simp [hneeds])]
            rfl
  | threw => exact ⟨hsingle, rfl, .inl ⟨rfl, rfl, rfl⟩, .inl rfl⟩
  | @pushed w x resultItems hw hloop =>
      obtain ⟨hone, hset⟩ := single_set hsingle hw
      have hresults : w.results = x :: resultItems := by rw [Worker.results, hloop]
      refine ⟨?_, rfl, .inl ⟨rfl, ?_, ?_⟩, .inr ⟨x.task, ?_⟩⟩
      · rw [List.length_set]
        exact hsingle
      · rw [unrun_single hone, unrun_single (hset _)]
        rfl
      · rw [lined_single hone, lined_single (hset _), hresults, List.map_append, List.append_assoc]
        rfl
      · rw [backlog_single hone, backlog_single (hset _), hresults]
        rfl

/-! ## The reaper -/

theorem enter_cases (c : ReaperCall) (requestId : ℤ) (s : Executor Payload Result) :
    s.findCached requestId = none ∧ s.enter c requestId = { s with reaper := some (c, requestId) } ∨
    ∃ x, s.findCached requestId = some x ∧
      (c.reaps = false ∧ s.enter c requestId = s.answer c requestId true none ∨
        c.reaps = true ∧
          s.enter c requestId = (s.eraseCached requestId).answer c requestId true (some x)) := by
  unfold enter
  cases hfound : s.findCached requestId with
  | none => exact .inl ⟨rfl, rfl⟩
  | some x =>
      refine .inr ⟨x, rfl, ?_⟩
      cases c with
      | ready => exact .inl ⟨rfl, rfl⟩
      | wait => exact .inl ⟨rfl, rfl⟩
      | tryReap => exact .inr ⟨rfl, rfl⟩
      | reap => exact .inr ⟨rfl, rfl⟩
      | reapVoid => exact .inr ⟨rfl, rfl⟩

/-- A turn of a call that drains the result queue. -/
inductive Drained (s : Executor Payload Result) (c : ReaperCall) (requestId : ℤ) :
    Executor Payload Result → Prop
  | failed : s.resultQueue = [] → Drained s c requestId (s.answer c requestId false none)
  | again : s.resultQueue = [] → Drained s c requestId s
  | cached {x : ExecutorResultItem Payload Result}
      {resultQueue : List (ExecutorResultItem Payload Result)} :
      s.resultQueue = x :: resultQueue → x.requestId ≠ requestId →
      Drained s c requestId
        { s with resultQueue, completedResults := x :: s.completedResults }
  | found {x : ExecutorResultItem Payload Result}
      {resultQueue : List (ExecutorResultItem Payload Result)} :
      s.resultQueue = x :: resultQueue → x.requestId = requestId → c.reaps = false →
      Drained s c requestId (answer c requestId true none
        { s with resultQueue, completedResults := x :: s.completedResults })
  | took {x : ExecutorResultItem Payload Result}
      {resultQueue : List (ExecutorResultItem Payload Result)} :
      s.resultQueue = x :: resultQueue → x.requestId = requestId → c.reaps = true →
      Drained s c requestId (answer c requestId true (some x) { s with resultQueue })

/-- The call in progress asks for a result that is not cached. -/
def Asking (s : Executor Payload Result) : Prop :=
  ∀ c requestId, s.reaper = some (c, requestId) → s.findCached requestId = none

theorem drain_drained {c : ReaperCall} {requestId : ℤ} (hreaper : s.reaper = some (c, requestId))
    (hasking : s.Asking) (hnew : ∀ x resultQueue, s.resultQueue = x :: resultQueue →
      s.findCached x.requestId = none) : s.Drained c requestId (s.drain c requestId) := by
  have hmissing := hasking c requestId hreaper
  cases hqueue : s.resultQueue with
  | nil =>
      unfold drain
      rw [hqueue]
      cases c with
      | ready => exact .failed hqueue
      | wait =>
          have hagain : s.enter .wait requestId = s := by
            rw [enter, hmissing, ← hreaper]
          rw [hagain]
          exact .again hqueue
      | tryReap => exact .failed hqueue
      | reap => exact .again hqueue
      | reapVoid => exact .again hqueue
  | cons x resultQueue =>
      have hemplace := emplace_eq (s := { s with resultQueue }) (hnew x resultQueue hqueue)
      unfold drain
      rw [hqueue]
      simp only [hemplace]
      by_cases hid : x.requestId = requestId
      · simp only [if_pos hid]
        cases c with
        | ready => exact .found hqueue hid rfl
        | wait => exact .found hqueue hid rfl
        | tryReap => exact .took hqueue hid rfl
        | reap => exact .took hqueue hid rfl
        | reapVoid =>
            have hfound : (x :: s.completedResults).find? (·.requestId = requestId) = some x :=
              List.find?_cons_of_pos (by simp [hid])
            have herase : (x :: s.completedResults).eraseP (·.requestId = requestId) =
              s.completedResults := List.eraseP_cons_of_pos (by simp [hid])
            simp only [findCached, eraseCached, hfound, herase]
            exact .took hqueue hid rfl
      · simp only [if_neg hid]
        cases c <;> exact .cached hqueue hid

theorem step_drain {taskQueueCapacity resultQueueCapacity : ℕ}
    (h : step taskQueueCapacity resultQueueCapacity .drain s = some s') :
    ∃ c requestId, s.reaper = some (c, requestId) ∧ s' = s.drain c requestId := by
  unfold step at h
  split at h
  · cases h
  · cases hreaper : s.reaper with
    | none =>
        simp only [hreaper] at h
        cases h
    | some call =>
        obtain ⟨c, requestId⟩ := call
        simp only [hreaper] at h
        exact ⟨c, requestId, rfl, (Option.some.inj h).symm⟩

theorem step_call {taskQueueCapacity resultQueueCapacity : ℕ} {c : ReaperCall} {requestId : ℤ}
    (h : step taskQueueCapacity resultQueueCapacity (.call c requestId) s = some s') :
    s.reaper = none ∧ s' = s.enter c requestId := by
  unfold step at h
  split at h
  · cases h
  · cases hreaper : s.reaper with
    | none =>
        simp only [hreaper] at h
        exact ⟨rfl, (Option.some.inj h).symm⟩
    | some call =>
        simp only [hreaper] at h
        cases h

/-- Moves of the other threads leave the reaper and its cache alone. -/
theorem Moved.reaper {a : ExecutorMove Payload Result} (h : s.Moved a s') (hdrain : a ≠ .drain)
    (hcall : ∀ c requestId, a ≠ .call c requestId) :
    s'.reaper = s.reaper ∧ s'.completedResults = s.completedResults ∧ s'.answers = s.answers := by
  cases h with
  | started => unfold start; split <;> [exact ⟨rfl, rfl, rfl⟩; split <;> exact ⟨rfl, rfl, rfl⟩]
  | refused => exact ⟨rfl, rfl, rfl⟩
  | submitted => exact ⟨rfl, rfl, rfl⟩
  | stopped => unfold stop; split <;> exact ⟨rfl, rfl, rfl⟩
  | pushedStop => exact ⟨rfl, rfl, rfl⟩
  | worked hworked => cases hworked <;> exact ⟨rfl, rfl, rfl⟩
  | @entered c requestId => exact absurd rfl (hcall c requestId)
  | drained => exact absurd rfl hdrain

/-! ## Every move -/

/-- A move that leaves the tasks and the results where they are. -/
theorem Served.of_lists (hsingle : s'.workers.length ≤ 1) (hsubmitted : s'.submitted = s.submitted)
    (hran : s'.ran = s.ran) (htasks : s'.workers.flatMap Worker.tasks = s.workers.flatMap Worker.tasks)
    (hresults : s'.workers.flatMap Worker.results = s.workers.flatMap Worker.results)
    (hqueue : s'.taskQueue.filter (!·.isStop) = s.taskQueue.filter (!·.isStop))
    (hqueue' : s'.resultQueue = s.resultQueue) : s.Served s' := by
  have hunrun : s'.unrun = s.unrun := by rw [unrun, unrun, htasks, hqueue]
  refine ⟨hsingle, hsubmitted, .inl ⟨hran, hunrun, ?_⟩, .inl ?_⟩
  · rw [lined, lined, hqueue', hresults]
  · rw [Executor.backlog, Executor.backlog, hunrun, hresults]

/-- A task goes behind the others. -/
structure Extended (s : Executor Payload Result) (t : ExecutorTaskItem Payload)
    (s' : Executor Payload Result) : Prop where
  single : s'.workers.length ≤ 1
  submitted : s'.submitted = t :: s.submitted
  ran : s'.ran = s.ran
  unrun : s'.unrun = s.unrun ++ [t]
  lined : s'.lined = s.lined
  backlog : s'.backlog = s.backlog ++ [t]

theorem served_start {numWorkers : ℕ} (hstopping : s.Stopping) (hsingle : s.workers.length ≤ 1)
    (hone : numWorkers ≤ 1) : s.Served (s.start numWorkers) := by
  unfold start
  split
  · exact .of_lists hsingle rfl rfl rfl rfl rfl rfl
  · next hstarted =>
    split
    · exact .of_lists hsingle rfl rfl rfl rfl rfl rfl
    · have hnone := (hstopping.idle (by simpa using hstarted)).1
      refine .of_lists ?_ rfl rfl ?_ ?_ rfl rfl
      · rw [List.length_replicate]
        split
        · exact Nat.le_refl 1
        · exact hone
      · rw [hnone, List.flatMap_nil]
        refine List.flatMap_eq_nil_iff.mpr fun w hw => ?_
        rw [List.eq_of_mem_replicate hw]
        rfl
      · rw [hnone, List.flatMap_nil]
        refine List.flatMap_eq_nil_iff.mpr fun w hw => ?_
        rw [List.eq_of_mem_replicate hw]
        rfl

theorem Moved.served {a : ExecutorMove Payload Result} (h : s.Moved a s') (hstopping : s.Stopping)
    (hsingle : s.workers.length ≤ 1) (hone : ∀ n, a = .start n → n ≤ 1) (hdrain : a ≠ .drain) :
    s.Served s' ∨ ∃ t, s.Extended t s' := by
  cases h with
  | @started numWorkers => exact .inl (served_start hstopping hsingle (hone numWorkers rfl))
  | refused => exact .inl (.of_lists hsingle rfl rfl rfl rfl rfl rfl)
  | @submitted requestId payload needsResult hid =>
      right
      have hgoes : [(⟨requestId, needsResult, some payload, s.submitted.length⟩ :
          ExecutorTaskItem Payload)].filter (!·.isStop) = [_] :=
        List.filter_cons_of_pos (by simpa [ExecutorTaskItem.isStop] using hid)
      have hunrun : unrun { s with
          taskQueue := s.taskQueue ++ [⟨requestId, needsResult, some payload, s.submitted.length⟩]
          submitted := ⟨requestId, needsResult, some payload, s.submitted.length⟩ :: s.submitted }
            = s.unrun ++ [⟨requestId, needsResult, some payload, s.submitted.length⟩] := by
        simp only [unrun, List.filter_append, hgoes, List.append_assoc]
      refine ⟨_, hsingle, rfl, rfl, hunrun, rfl, ?_⟩
      rw [backlog, hunrun, backlog, List.append_assoc]
  | stopped =>
      left
      unfold stop
      split
      · exact .of_lists hsingle rfl rfl rfl rfl rfl rfl
      · exact .of_lists hsingle rfl rfl rfl rfl rfl rfl
  | pushedStop =>
      refine .inl (.of_lists hsingle rfl rfl rfl rfl ?_ rfl)
      rw [List.filter_append, List.filter_cons_of_neg (by simp [ExecutorTaskItem.isStop,
        ExecutorTaskItem.makeStop]), List.filter_nil, List.append_nil]
  | worked hworked => exact .inl (hworked.served hsingle)
  | @entered c requestId =>
      obtain ⟨_, _, _, heq⟩ := enter_frame c requestId s
      rw [heq]
      exact .inl (.of_lists hsingle rfl rfl rfl rfl rfl rfl)
  | drained => exact absurd rfl hdrain

/-- The tasks run in the order in which they were submitted, by one worker. -/
structure Queued (s : Executor Payload Result) : Prop where
  single : s.workers.length ≤ 1
  order : (s.ran.map Prod.fst).reverse ++ s.unrun = s.submitted.reverse

theorem Served.queued (h : s.Served s') (hs : s.Queued) : s'.Queued := by
  refine ⟨h.single, ?_⟩
  rw [h.submitted, ← hs.order]
  rcases h.ran with ⟨hran, hunrun, -⟩ | ⟨t, v, hran, hunrun, -⟩
  · rw [hran, hunrun]
  · rw [hran, hunrun, List.map_cons, List.reverse_cons, List.append_assoc]
    rfl

theorem Extended.queued {t : ExecutorTaskItem Payload} (h : s.Extended t s') (hs : s.Queued) :
    s'.Queued := by
  refine ⟨h.single, ?_⟩
  rw [h.submitted, List.reverse_cons, ← hs.order, h.ran, h.unrun, List.append_assoc]

/-- A turn of the reaper leaves the queue alone. -/
theorem drain_queue (c : ReaperCall) (requestId : ℤ) (s : Executor Payload Result) :
    (s.drain c requestId).workers = s.workers ∧ (s.drain c requestId).ran = s.ran ∧
      (s.drain c requestId).submitted = s.submitted ∧ (s.drain c requestId).unrun = s.unrun ∧
      (s.drain c requestId).backlog = s.backlog := by
  obtain ⟨_, _, _, _, heq⟩ := drain_frame c requestId s
  rw [heq]
  exact ⟨rfl, rfl, rfl, rfl, rfl⟩

theorem step_queued {taskQueueCapacity resultQueueCapacity : ℕ} {a : ExecutorMove Payload Result}
    (h : step taskQueueCapacity resultQueueCapacity a s = some s') (hstopping : s.Stopping)
    (hone : ∀ n, a = .start n → n ≤ 1) (hs : s.Queued) : s'.Queued := by
  by_cases hdrain : a = .drain
  · rw [hdrain] at h
    obtain ⟨c, requestId, -, rfl⟩ := step_drain h
    obtain ⟨hworkers, hran, hsubmitted, hunrun, -⟩ := drain_queue c requestId s
    refine ⟨?_, ?_⟩
    · rw [hworkers]
      exact hs.single
    · rw [hran, hunrun, hsubmitted]
      exact hs.order
  · rcases (step_moved h).served hstopping hs.single hone hdrain with hserved | ⟨t, hextended⟩
    · exact hserved.queued hs
    · exact hextended.queued hs

/-! ## Answers -/

/-- The ids a caller may still ask for are those of the queue, of the result queue and of the cache. -/
theorem unreaped_split (h : s.Kept) : s.unreaped.Perm
    ((s.backlog.filter ExecutorTaskItem.needsResult).map ExecutorTaskItem.requestId ++
      (s.resultQueue ++ s.completedResults).map ExecutorResultItem.requestId) := by
  have hneeds : ((s.workers.flatMap Worker.results).map ExecutorResultItem.task).filter
      ExecutorTaskItem.needsResult =
        (s.workers.flatMap Worker.results).map ExecutorResultItem.task := by
    refine List.filter_eq_self.mpr ?_
    intro t ht
    obtain ⟨x, hx, rfl⟩ := List.mem_map.mp ht
    exact (labelled h.balanced (List.mem_append_left _ (List.mem_append_left _ hx))).2.2
  have hlabels : (s.resultQueue ++ s.completedResults).map ExecutorResultItem.requestId =
      ((s.resultQueue ++ s.completedResults).map ExecutorResultItem.task).map
        ExecutorTaskItem.requestId := by
    rw [List.map_map]
    refine List.map_congr_left ?_
    intro x hx
    exact (labelled h.balanced (List.mem_append_left _ (List.mem_append_right _ hx))).1
  refine (unreaped_perm h.balanced h.fits).trans ?_
  rw [hlabels, ← List.map_append]
  refine List.Perm.map _ ?_
  have hheld : s.ledger.held.map Prod.fst =
      (s.workers.flatMap Worker.results).map ExecutorResultItem.task ++
        (s.resultQueue ++ s.completedResults).map ExecutorResultItem.task := by
    rw [ledger, List.map_map, ← List.map_append]
    rfl
  have hwaiting : (s.waiting.filter ExecutorTaskItem.needsResult).Perm
      (s.unrun.filter ExecutorTaskItem.needsResult) :=
    List.perm_append_comm.filter _
  rw [WorkLedger.outstanding, hheld, backlog, List.filter_append, hneeds, ← List.append_assoc]
  refine List.Perm.append_right _ ?_
  exact (hwaiting.append_right _).trans List.perm_append_comm

theorem Kept.unreaped_nodup (h : s.Kept) : s.unreaped.Nodup :=
  (unreaped_perm h.balanced h.fits).nodup_iff.mpr h.distinct

/-- A result that has been handed over is not awaited. -/
theorem Kept.not_backlog (h : s.Kept) {x : ExecutorResultItem Payload Result}
    (hx : x ∈ s.resultQueue ++ s.completedResults) :
    x.requestId ∉ (s.backlog.filter ExecutorTaskItem.needsResult).map ExecutorTaskItem.requestId := by
  intro hbacklog
  have hnodup := (unreaped_split h).nodup_iff.mp h.unreaped_nodup
  exact (List.nodup_append.mp hnodup).2.2 _ hbacklog _ (List.mem_map_of_mem hx) rfl

theorem cons_inj_answer {r r' : Answer Payload Result} {answers : List (Answer Payload Result)}
    (h : r :: answers = r' :: answers) : r = r' := (List.cons.inj h).1

theorem step_other {taskQueueCapacity resultQueueCapacity : ℕ} {a : ExecutorMove Payload Result}
    (h : step taskQueueCapacity resultQueueCapacity a s = some s') (hdrain : a ≠ .drain)
    (hcall : ∀ c requestId, a ≠ .call c requestId) :
    s'.reaper = s.reaper ∧ s'.completedResults = s.completedResults ∧ s'.answers = s.answers :=
  (step_moved h).reaper hdrain hcall

/-- **A call that may fail says whether the task is still in the queue.** -/
theorem step_answered {taskQueueCapacity resultQueueCapacity : ℕ}
    {a : ExecutorMove Payload Result}
    (h : step taskQueueCapacity resultQueueCapacity a s = some s') (hkept : s.Kept)
    (hasking : s.Asking) {r : Answer Payload Result} (hr : s'.answers = r :: s.answers)
    (hid : r.requestId ∈ s.unreaped) : r.returned = true ↔
      r.requestId ∉ (s.backlog.filter ExecutorTaskItem.needsResult).map
        ExecutorTaskItem.requestId := by
  have hsame : s'.answers ≠ s.answers := by
    intro heq
    have hlength := congrArg List.length (heq.symm.trans hr)
    exact absurd hlength (Nat.ne_of_lt (Nat.lt_succ_self _))
  cases a with
  | drain =>
      obtain ⟨c, requestId, hreaper, rfl⟩ := step_drain h
      have hdrained := drain_drained hreaper hasking
        fun _ _ hqueue => not_cached hkept.balanced hkept.distinct hqueue
      generalize s.drain c requestId = t at hdrained hr hsame
      cases hdrained with
      | failed hqueue =>
          obtain rfl := cons_inj_answer hr
          refine ⟨nofun, ?_⟩
          intro hnot
          have hmem := (unreaped_split hkept).subset hid
          rcases List.mem_append.mp hmem with hbacklog | hlater
          · exact absurd hbacklog hnot
          · rw [hqueue, List.nil_append] at hlater
            obtain ⟨x, hx, hxid⟩ := List.mem_map.mp hlater
            have hnone := List.find?_eq_none.mp (hasking c requestId hreaper) x hx
            exact absurd (decide_eq_true hxid) hnone
      | again => exact absurd rfl hsame
      | cached => exact absurd rfl hsame
      | found hqueue hxid =>
          obtain rfl := cons_inj_answer hr
          refine ⟨fun _ => ?_, fun _ => rfl⟩
          rw [show Answer.requestId _ = requestId from rfl, ← hxid]
          refine hkept.not_backlog (List.mem_append_left _ ?_)
          rw [hqueue]
          exact List.mem_cons_self
      | took hqueue hxid =>
          obtain rfl := cons_inj_answer hr
          refine ⟨fun _ => ?_, fun _ => rfl⟩
          rw [show Answer.requestId _ = requestId from rfl, ← hxid]
          refine hkept.not_backlog (List.mem_append_left _ ?_)
          rw [hqueue]
          exact List.mem_cons_self
  | call c requestId =>
      obtain ⟨-, rfl⟩ := step_call h
      rcases enter_cases c requestId s with ⟨-, heq⟩ | ⟨x, hfound, hcases⟩
      · rw [heq] at hsame
        exact absurd rfl hsame
      · have hx := hkept.not_backlog (List.mem_append_right _ (List.mem_of_find?_eq_some hfound))
        rw [findCached_requestId hfound] at hx
        rcases hcases with ⟨-, heq⟩ | ⟨-, heq⟩
        · rw [heq] at hr
          obtain rfl := cons_inj_answer hr
          exact ⟨fun _ => hx, fun _ => rfl⟩
        · rw [heq] at hr
          obtain rfl := cons_inj_answer hr
          exact ⟨fun _ => hx, fun _ => rfl⟩
  | start => exact absurd (step_other h (fun hd => by cases hd) fun _ _ hc => by cases hc).2.2 hsame
  | submit => exact absurd (step_other h (fun hd => by cases hd) fun _ _ hc => by cases hc).2.2 hsame
  | stop => exact absurd (step_other h (fun hd => by cases hd) fun _ _ hc => by cases hc).2.2 hsame
  | pushStop => exact absurd (step_other h (fun hd => by cases hd) fun _ _ hc => by cases hc).2.2 hsame
  | work => exact absurd (step_other h (fun hd => by cases hd) fun _ _ hc => by cases hc).2.2 hsame

theorem asking_init : Asking ({} : Executor Payload Result) := by
  intro c requestId hreaper
  cases hreaper

theorem step_asking {taskQueueCapacity resultQueueCapacity : ℕ} {a : ExecutorMove Payload Result}
    (h : step taskQueueCapacity resultQueueCapacity a s = some s') (hkept : s.Kept)
    (hasking : s.Asking) : s'.Asking := by
  by_cases hdrain : a = .drain
  · rw [hdrain] at h
    obtain ⟨c, requestId, hreaper, rfl⟩ := step_drain h
    have hdrained := drain_drained hreaper hasking
      fun _ _ hqueue => not_cached hkept.balanced hkept.distinct hqueue
    generalize s.drain c requestId = t at hdrained
    cases hdrained with
    | again => exact hasking
    | @cached x resultQueue _ hid =>
        intro c' requestId' hreaper'
        obtain ⟨rfl, rfl⟩ := Prod.mk.inj (Option.some.inj (hreaper.symm.trans hreaper'))
        rw [findCached, List.find?_cons_of_neg (by simpa using hid)]
        exact hasking c requestId hreaper
    | failed => intro _ _ hreaper'; cases hreaper'
    | found => intro _ _ hreaper'; cases hreaper'
    | took => intro _ _ hreaper'; cases hreaper'
  · by_cases hcall : ∃ c requestId, a = .call c requestId
    · obtain ⟨c, requestId, rfl⟩ := hcall
      obtain ⟨-, rfl⟩ := step_call h
      rcases enter_cases c requestId s with ⟨hnone, heq⟩ | ⟨x, -, ⟨-, heq⟩ | ⟨-, heq⟩⟩
      · rw [heq]
        intro c' requestId' hreaper'
        obtain ⟨rfl, rfl⟩ := Prod.mk.inj (Option.some.inj hreaper')
        exact hnone
      · rw [heq]
        intro _ _ hreaper'
        cases hreaper'
      · rw [heq]
        intro _ _ hreaper'
        cases hreaper'
    · obtain ⟨hreaper, hcompleted, -⟩ := step_other h hdrain
        fun c requestId heq => hcall ⟨c, requestId, heq⟩
      intro c requestId hs'
      rw [findCached, hcompleted]
      exact hasking c requestId (hreaper ▸ hs')

/-! ## Runs -/

/-- The executor is the queue `backlog` of its tasks. -/
structure IsQueue (taskQueueCapacity resultQueueCapacity : ℕ) (s : Executor Payload Result) :
    Prop where
  /-- The tasks run in the order in which they were submitted. -/
  order : (s.ran.map Prod.fst).reverse ++ s.unrun = s.submitted.reverse
  /-- A move puts the task it submits behind the others, takes away the first, or does neither. -/
  moves : ∀ a s', step taskQueueCapacity resultQueueCapacity a s = some s' →
    (∀ n, a = .start n → n ≤ 1) →
    (∃ t, s'.submitted = t :: s.submitted ∧ s'.backlog = s.backlog ++ [t]) ∨
      s'.submitted = s.submitted ∧ (s'.backlog = s.backlog ∨ ∃ t, s.backlog = t :: s'.backlog)
  /-- A call for a task that has a result returns, or returns true, where the task is over. -/
  answers : ∀ a s' r, step taskQueueCapacity resultQueueCapacity a s = some s' →
    s'.answers = r :: s.answers → r.requestId ∈ s.unreaped →
    (r.returned = true ↔ r.requestId ∉
      (s.backlog.filter ExecutorTaskItem.needsResult).map ExecutorTaskItem.requestId)

theorem exec_queued {taskQueueCapacity resultQueueCapacity : ℕ}
    {acts : List (ExecutorMove Payload Result)}
    (h : exec (step taskQueueCapacity resultQueueCapacity) acts {} = some s)
    (hfresh : FreshIds taskQueueCapacity resultQueueCapacity acts)
    (hone : ∀ n, .start n ∈ acts → n ≤ 1) : s.Queued ∧ s.Asking := by
  induction acts using List.reverseRecOn generalizing s with
  | nil =>
      obtain rfl := Option.some.inj h
      exact ⟨⟨Nat.zero_le 1, rfl⟩, asking_init⟩
  | append_singleton acts a ih =>
      obtain ⟨s₁, hacts, ha⟩ := exec_concat.mp h
      have hfresh₁ : FreshIds taskQueueCapacity resultQueueCapacity acts :=
        fun acts' requestId payload s' hle =>
          hfresh acts' requestId payload s' (hle.trans (List.prefix_append ..))
      have hkept := exec_kept hacts hfresh₁
      obtain ⟨hqueued, hasking⟩ := ih hacts hfresh₁
        fun n hn => hone n (List.mem_append_left _ hn)
      refine ⟨step_queued ha hkept.stopping ?_ hqueued, step_asking ha hkept hasking⟩
      rintro n rfl
      exact hone n (List.mem_append_right _ (List.mem_singleton_self _))

/-- **An executor with one worker is a queue**, whatever its submitter, its worker and its reaper do in
between, as long as the ids of the outstanding tasks are distinct. -/
theorem single_thread_queue {taskQueueCapacity resultQueueCapacity : ℕ}
    {acts : List (ExecutorMove Payload Result)}
    (h : exec (step taskQueueCapacity resultQueueCapacity) acts {} = some s)
    (hfresh : FreshIds taskQueueCapacity resultQueueCapacity acts)
    (hone : ∀ n, .start n ∈ acts → n ≤ 1) :
    s.IsQueue taskQueueCapacity resultQueueCapacity := by
  obtain ⟨hqueued, hasking⟩ := exec_queued h hfresh hone
  have hkept := exec_kept h hfresh
  refine ⟨hqueued.order, ?_, ?_⟩
  · intro a s' hstep hstart
    by_cases hdrain : a = .drain
    · rw [hdrain] at hstep
      obtain ⟨c, requestId, -, rfl⟩ := step_drain hstep
      obtain ⟨-, -, hsubmitted, -, hbacklog⟩ := drain_queue c requestId s
      exact .inr ⟨hsubmitted, .inl hbacklog⟩
    · rcases (step_moved hstep).served hkept.stopping hqueued.single hstart hdrain with
        hserved | ⟨t, hextended⟩
      · exact .inr ⟨hserved.submitted, hserved.backlog⟩
      · exact .inl ⟨t, hextended.submitted, hextended.backlog⟩
  · intro a s' r hstep hr hid
    exact step_answered hstep hkept hasking hr hid

/-! ## Reaping in order -/

/-- The ids of the tasks submitted for a result, oldest first. -/
def due (s : Executor Payload Result) : List ℤ :=
  ((s.submitted.filter ExecutorTaskItem.needsResult).map ExecutorTaskItem.requestId).reverse

/-- Every call takes a result, and asks for the oldest that has not been taken. -/
def ReapsInOrder (taskQueueCapacity resultQueueCapacity : ℕ)
    (acts : List (ExecutorMove Payload Result)) : Prop :=
  ∀ acts' c requestId s, acts' ++ [.call c requestId] <+: acts →
    exec (step taskQueueCapacity resultQueueCapacity) acts' {} = some s →
    c.reaps = true ∧ s.due[s.taken.length]? = some requestId

/-- The results are taken in the order in which their tasks ran. -/
structure Ordered (s : Executor Payload Result) : Prop where
  uncached : s.completedResults = []
  lined : ((s.ran.map Prod.fst).reverse).filter ExecutorTaskItem.needsResult =
    (s.taken.map ExecutorResultItem.task).reverse ++ s.lined
  asking : ∀ c requestId, s.reaper = some (c, requestId) →
    c.reaps = true ∧ s.due[s.taken.length]? = some requestId

/-- The next result is the one that is due. -/
theorem Ordered.due_head (h : s.Ordered) (hqueued : s.Queued) (hkept : s.Kept)
    {x : ExecutorResultItem Payload Result}
    {resultQueue : List (ExecutorResultItem Payload Result)}
    (hqueue : s.resultQueue = x :: resultQueue) : s.due[s.taken.length]? = some x.requestId := by
  have hlined : s.lined = x.task ::
      (resultQueue ++ s.workers.flatMap Worker.results).map ExecutorResultItem.task := by
    rw [Executor.lined, hqueue]
    rfl
  have hdue : s.due = ((s.taken.map ExecutorResultItem.task).reverse.map
      ExecutorTaskItem.requestId) ++ x.task.requestId ::
        ((resultQueue ++ s.workers.flatMap Worker.results).map ExecutorResultItem.task ++
          s.unrun.filter ExecutorTaskItem.needsResult).map ExecutorTaskItem.requestId := by
    rw [due, ← List.map_reverse, ← List.filter_reverse, ← hqueued.order, List.filter_append, h.lined,
      hlined, List.append_assoc, List.map_append]
    rfl
  have hlabel := (labelled hkept.balanced (x := x) (List.mem_append_left _
    (List.mem_append_right _ (List.mem_append_left _ (by rw [hqueue]; exact List.mem_cons_self))))).1
  have hlength : ((s.taken.map ExecutorResultItem.task).reverse.map
      ExecutorTaskItem.requestId).length = s.taken.length := by
    rw [List.length_map, List.length_reverse, List.length_map]
  rw [hdue, ← hlength, List.getElem?_append_right (Nat.le_refl _), Nat.sub_self, hlabel]
  rfl

theorem taken_congr (h : s'.answers = s.answers) : s'.taken = s.taken := by
  rw [taken, taken, h]

theorem Served.ordered (h : s.Served s') (hs : s.Ordered) (hreaper : s'.reaper = s.reaper)
    (hcompleted : s'.completedResults = s.completedResults) (hanswers : s'.answers = s.answers) :
    s'.Ordered := by
  have hdue : s'.due = s.due := by rw [due, due, h.submitted]
  refine ⟨hcompleted.trans hs.uncached, ?_, ?_⟩
  · rw [taken_congr hanswers]
    rcases h.ran with ⟨hran, -, hlined⟩ | ⟨t, v, hran, -, hlined⟩
    · rw [hran, hlined]
      exact hs.lined
    · rw [hran, hlined, List.map_cons, List.reverse_cons, List.filter_append, hs.lined,
        List.append_assoc]
  · rw [taken_congr hanswers, hdue, hreaper]
    exact hs.asking

theorem Extended.ordered {t : ExecutorTaskItem Payload} (h : s.Extended t s') (hs : s.Ordered)
    (hreaper : s'.reaper = s.reaper) (hcompleted : s'.completedResults = s.completedResults)
    (hanswers : s'.answers = s.answers) : s'.Ordered := by
  refine ⟨hcompleted.trans hs.uncached, ?_, ?_⟩
  · rw [taken_congr hanswers, h.ran, h.lined]
    exact hs.lined
  · intro c requestId hasked
    obtain ⟨hreaps, hdue⟩ := hs.asking c requestId (hreaper ▸ hasked)
    refine ⟨hreaps, ?_⟩
    have hmore : s'.due = s.due ++ ([t].filter ExecutorTaskItem.needsResult).map
        ExecutorTaskItem.requestId := by
      rw [due, due, h.submitted, ← List.singleton_append, List.filter_append, List.map_append,
        List.reverse_append]
      cases hneeds : t.needsResult <;> simp [hneeds]
    rw [taken_congr hanswers, hmore, List.getElem?_append_left
      (List.getElem?_eq_some_iff.mp hdue).1]
    exact hdue

theorem Ordered.drain (h : s.Ordered) (hqueued : s.Queued) (hkept : s.Kept) {c : ReaperCall}
    {requestId : ℤ} (hreaper : s.reaper = some (c, requestId)) (hdrained : s.Drained c requestId s') :
    s'.Ordered := by
  obtain ⟨hreaps, hdue⟩ := h.asking c requestId hreaper
  cases hdrained with
  | failed =>
      refine ⟨h.uncached, h.lined, ?_⟩
      intro _ _ hnone
      cases hnone
  | again => exact h
  | cached hqueue hid =>
      exact absurd (Option.some.inj ((h.due_head hqueued hkept hqueue).symm.trans hdue)) hid
  | found _ _ hnot =>
      rw [hreaps] at hnot
      cases hnot
  | @took x resultQueue hqueue hid =>
      refine ⟨h.uncached, ?_, ?_⟩
      · refine h.lined.trans ?_
        rw [Executor.lined, Executor.lined, hqueue]
        simp only [taken, answer, List.filterMap_cons, List.map_cons, List.reverse_cons,
          List.append_assoc, List.cons_append, List.nil_append]
      · intro _ _ hnone
        cases hnone

theorem exec_ordered {taskQueueCapacity resultQueueCapacity : ℕ}
    {acts : List (ExecutorMove Payload Result)}
    (h : exec (step taskQueueCapacity resultQueueCapacity) acts {} = some s)
    (hfresh : FreshIds taskQueueCapacity resultQueueCapacity acts)
    (hone : ∀ n, .start n ∈ acts → n ≤ 1)
    (hreaps : ReapsInOrder taskQueueCapacity resultQueueCapacity acts) : s.Ordered := by
  induction acts using List.reverseRecOn generalizing s with
  | nil =>
      obtain rfl := Option.some.inj h
      refine ⟨rfl, rfl, ?_⟩
      intro _ _ hnone
      cases hnone
  | append_singleton acts a ih =>
      obtain ⟨s₁, hacts, ha⟩ := exec_concat.mp h
      have hfresh₁ : FreshIds taskQueueCapacity resultQueueCapacity acts :=
        fun acts' requestId payload s' hle =>
          hfresh acts' requestId payload s' (hle.trans (List.prefix_append ..))
      have hone₁ : ∀ n, .start n ∈ acts → n ≤ 1 := fun n hn => hone n (List.mem_append_left _ hn)
      have hs₁ := ih hacts hfresh₁ hone₁ fun acts' c requestId s' hle =>
        hreaps acts' c requestId s' (hle.trans (List.prefix_append ..))
      have hkept := exec_kept hacts hfresh₁
      obtain ⟨hqueued, hasking⟩ := exec_queued hacts hfresh₁ hone₁
      by_cases hdrain : a = .drain
      · rw [hdrain] at ha
        obtain ⟨c, requestId, hreaper, rfl⟩ := step_drain ha
        refine hs₁.drain hqueued hkept hreaper (drain_drained hreaper hasking ?_)
        exact fun _ _ hqueue => not_cached hkept.balanced hkept.distinct hqueue
      · by_cases hcall : ∃ c requestId, a = .call c requestId
        · obtain ⟨c, requestId, rfl⟩ := hcall
          have hask := hreaps acts c requestId s₁ (List.prefix_refl _) hacts
          obtain ⟨-, rfl⟩ := step_call ha
          rcases enter_cases c requestId s₁ with ⟨-, heq⟩ | ⟨x, hfound, -⟩
          · rw [heq]
            refine ⟨hs₁.uncached, hs₁.lined, ?_⟩
            intro c' requestId' hreaper
            obtain ⟨rfl, rfl⟩ := Prod.mk.inj (Option.some.inj hreaper)
            exact hask
          · have hmem := List.mem_of_find?_eq_some hfound
            rw [hs₁.uncached] at hmem
            cases hmem
        · have hstart : ∀ n, a = .start n → n ≤ 1 := by
            rintro n rfl
            exact hone n (List.mem_append_right _ (List.mem_singleton_self _))
          obtain ⟨hreaper, hcompleted, hanswers⟩ := step_other ha hdrain
            fun c requestId heq => hcall ⟨c, requestId, heq⟩
          rcases (step_moved ha).served hkept.stopping hqueued.single hstart hdrain with
            hserved | ⟨t, hextended⟩
          · exact hserved.ordered hs₁ hreaper hcompleted hanswers
          · exact hextended.ordered hs₁ hreaper hcompleted hanswers

/-- **Where the results of one worker are reaped in order, nothing is ever cached**, and they are taken
in the order in which their tasks were submitted. -/
theorem in_order_uncached {taskQueueCapacity resultQueueCapacity : ℕ}
    {acts : List (ExecutorMove Payload Result)}
    (h : exec (step taskQueueCapacity resultQueueCapacity) acts {} = some s)
    (hfresh : FreshIds taskQueueCapacity resultQueueCapacity acts)
    (hone : ∀ n, .start n ∈ acts → n ≤ 1)
    (hreaps : ReapsInOrder taskQueueCapacity resultQueueCapacity acts) :
    s.completedResults = [] ∧ (s.taken.map ExecutorResultItem.task).reverse <+:
      (s.submitted.filter ExecutorTaskItem.needsResult).reverse := by
  have hordered := exec_ordered h hfresh hone hreaps
  refine ⟨hordered.uncached, s.lined ++ s.unrun.filter ExecutorTaskItem.needsResult, ?_⟩
  rw [← List.filter_reverse, ← (exec_queued h hfresh hone).1.order, List.filter_append,
    hordered.lined, List.append_assoc]

end

/-- Two tasks are submitted to one worker, and the result of the first is taken. -/
def firstOfTwo : List (ExecutorMove Unit ℕ) :=
  [.start 1, .submit 0 () true, .submit 1 () true, .work 0 none, .work 0 none, .work 0 (some 7),
    .work 0 none, .call .reap 0, .drain]

theorem firstOfTwo_single : ∀ n, .start n ∈ firstOfTwo → n ≤ 1 := by
  intro n hn
  simp only [firstOfTwo, List.mem_cons, ExecutorMove.start.injEq, reduceCtorEq, List.not_mem_nil,
    or_false] at hn
  omega

theorem firstOfTwo_queue :
    IsQueue 4 4 ((exec (step 4 4) firstOfTwo {}).get (by decide +kernel)) :=
  single_thread_queue (Option.some_get _).symm (FreshIds.of_nodup (by decide)) firstOfTwo_single

theorem firstOfTwo_uncached :
    ((exec (step 4 4) firstOfTwo {}).get (by decide +kernel)).completedResults = [] := by
  refine (in_order_uncached (Option.some_get _).symm (FreshIds.of_nodup (by decide))
    firstOfTwo_single ?_).1
  intro acts' c requestId s hle hs
  obtain ⟨htake, hplace⟩ := take_of_concat_prefix hle
  have hlt := (List.getElem?_eq_some_iff.mp hplace).1
  rw [htake] at hs
  generalize acts'.length = n at hplace hlt hs
  change n < 9 at hlt
  interval_cases n
  all_goals cases hplace
  obtain rfl := Option.some.inj hs
  exact ⟨rfl, rfl⟩

end Executor

end

end InstantTensor
