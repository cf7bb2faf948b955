/-
# `InstantTensor.Results` — the executor keeps its books

What waits in the task queue or in a worker, and the results on their way to the reaper, make a
ledger of tasks (`Executor.ledger`).  Each move of the executor is a step of the ledger, as long as
the ids of the outstanding tasks are distinct: then `emplace` never meets an entry of the same id
and drops nothing.  The rules of the ledger give that no task or result is lost or doubled.
-/
import InstantTensor.ExecutorSteps
import InstantTensor.Lib.WorkLedger
import InstantTensor.Lib.Lists
import InstantTensor.Lib.Runs

namespace InstantTensor

section
variable {Payload Result : Type}

/-! ## The ledger of an executor -/

namespace Executor

/-- The tasks that have not run. -/
def waiting (s : Executor Payload Result) : List (ExecutorTaskItem Payload) :=
  s.taskQueue.filter (!·.isStop) ++ s.workers.flatMap Worker.tasks

/-- The results that no call has taken. -/
def results (s : Executor Payload Result) : List (ExecutorResultItem Payload Result) :=
  s.workers.flatMap Worker.results ++ (s.resultQueue ++ s.completedResults)

def taken (s : Executor Payload Result) : List (ExecutorResultItem Payload Result) :=
  s.answers.filterMap Answer.taken

def ledger (s : Executor Payload Result) : WorkLedger (ExecutorTaskItem Payload) (ℤ × Result) where
  submitted := s.submitted
  waiting := s.waiting
  ran := s.ran.map fun c => (c.1, c.1.requestId, c.2)
  held := s.results.map ExecutorResultItem.entry
  taken := s.taken.map ExecutorResultItem.entry

/-- A step of the ledger of an executor. -/
def Booked (s s' : Executor Payload Result) : Prop :=
  WorkLedger.Step ExecutorTaskItem.needsResult s.ledger s'.ledger

/-- The ids of the outstanding tasks are distinct. -/
def Distinct (s : Executor Payload Result) : Prop :=
  ((s.ledger.outstanding ExecutorTaskItem.needsResult).map ExecutorTaskItem.requestId).Nodup

section
variable {s s' : Executor Payload Result}

/-- A move of tasks and results from one place to another. -/
theorem Booked.of_moved (hsubmitted : s'.submitted = s.submitted)
    (hwaiting : s'.waiting.Perm s.waiting) (hran : s'.ran = s.ran)
    (hresults : s'.results.Perm s.results) (htaken : s'.taken = s.taken) : s.Booked s' :=
  .move hsubmitted hwaiting (by simp only [ledger, hran]) (hresults.map _)
    (by simp only [ledger, htaken])

theorem Booked.refl (s : Executor Payload Result) : s.Booked s :=
  .of_moved rfl (.refl _) rfl (.refl _) rfl

theorem Booked.of_taken {x : ExecutorResultItem Payload Result}
    (hsubmitted : s'.submitted = s.submitted) (hwaiting : s'.waiting.Perm s.waiting)
    (hran : s'.ran = s.ran) (hresults : s.results.Perm (x :: s'.results))
    (htaken : s'.taken = x :: s.taken) : s.Booked s' :=
  .take (x := x.entry) hsubmitted hwaiting (by simp only [ledger, hran])
    (hresults.map ExecutorResultItem.entry) (by simp only [ledger, htaken, List.map_cons])

/-! ## The submitter -/

theorem booked_start (numWorkers : ℕ) (hidle : s.started = false → s.workers = []) :
    s.Booked (s.start numWorkers) := by
  unfold start
  split
  · exact .refl s
  · next hstarted =>
    split
    · exact .refl s
    · have hworkers := hidle (by simpa using hstarted)
      refine .of_moved rfl (.of_eq ?_) rfl (.of_eq ?_) rfl
      · simp only [waiting, hworkers]
        rw [List.flatMap_eq_nil_iff.mpr fun w hw => by rw [List.eq_of_mem_replicate hw]; rfl]
        rfl
      · simp only [results, hworkers]
        rw [List.flatMap_eq_nil_iff.mpr fun w hw => by rw [List.eq_of_mem_replicate hw]; rfl]
        rfl

theorem booked_submit {task : ExecutorTaskItem Payload} (hstop : task.isStop = false) :
    s.Booked { s with taskQueue := s.taskQueue ++ [task], submitted := task :: s.submitted } := by
  refine .submit rfl ?_ rfl (.refl _) rfl
  simp only [ledger, waiting, List.filter_append]
  rw [List.filter_cons_of_pos (by simp [hstop]), List.filter_nil, List.append_assoc,
    List.singleton_append]
  exact List.perm_middle

theorem booked_stop : s.Booked s.stop := by
  unfold stop
  split
  · exact .refl s
  · exact .of_moved rfl (.refl _) rfl (.refl _) rfl

theorem booked_pushStop {n : ℕ} :
    s.Booked { s with taskQueue := s.taskQueue ++ [ExecutorTaskItem.makeStop], stopping := n } := by
  refine .of_moved rfl (.of_eq ?_) rfl (.refl _) rfl
  simp only [waiting, List.filter_append]
  rw [List.filter_cons_of_neg (by simp [ExecutorTaskItem.isStop, ExecutorTaskItem.makeStop]),
    List.filter_nil, List.append_nil]

/-! ## The workers -/

/-- A worker that keeps its task and its results. -/
theorem Booked.of_worker {k : ℕ} {w w' : Worker Payload Result} (hw : s.workers[k]? = some w)
    (htasks : w'.tasks = w.tasks) (hresults : w'.results = w.results) :
    s.Booked { s with workers := s.workers.set k w' } := by
  refine .of_moved rfl (.of_eq ?_) rfl (.of_eq ?_) rfl
  · simp only [waiting, flatMap_set_eq hw htasks]
  · simp only [results, flatMap_set_eq hw hresults]

/-- A worker takes a task from the queue. -/
theorem booked_addTask {k : ℕ} {w : Worker Payload Result} {task : ExecutorTaskItem Payload}
    {taskQueue : List (ExecutorTaskItem Payload)} {loop : WorkerLoop Payload Result}
    (hw : s.workers[k]? = some w) (hidle : w.tasks = []) (hloop : w.results = [])
    (hloop' : ({ w with driver := w.driver.addTask task, loop } : Worker _ _).results = [])
    (hqueue : s.taskQueue = task :: taskQueue) (hstop : task.isStop = false) :
    s.Booked { s with
      taskQueue
      workers := s.workers.set k { w with driver := w.driver.addTask task, loop } } := by
  refine .of_moved rfl ?_ rfl (.of_eq ?_) rfl
  · have hperm := flatMap_set_perm hw { w with driver := w.driver.addTask task, loop } Worker.tasks
    rw [hidle, List.nil_append] at hperm
    simp only [waiting, hqueue]
    rw [List.filter_cons_of_pos (by simp [hstop])]
    exact (hperm.append_left _).trans List.perm_middle
  · simp only [results]
    rw [flatMap_set_eq hw (hloop'.trans hloop.symm)]

/-- A worker runs its task. -/
theorem booked_run {k : ℕ} {w : Worker Payload Result} {task : ExecutorTaskItem Payload}
    {value : Result} {resultItems : List (ExecutorResultItem Payload Result)}
    (hw : s.workers[k]? = some w) (htask : w.driver.pendingTask = some task)
    (hloop : w.results = []) (hresults : resultItems.map ExecutorResultItem.entry =
      [(task, task.requestId, value)].filter (·.1.needsResult)) :
    s.Booked { s with
      workers := s.workers.set k { w with
        driver := { w.driver with pendingTask := none }, loop := .pushing resultItems }
      ran := (task, value) :: s.ran } := by
  have hwaiting := flatMap_set_perm hw { w with
    driver := { w.driver with pendingTask := none }, loop := .pushing resultItems } Worker.tasks
  have hheld := flatMap_set_perm hw { w with
    driver := { w.driver with pendingTask := none }, loop := .pushing resultItems } Worker.results
  refine .run (t := task) (v := (task.requestId, value)) rfl ?_ rfl ?_ rfl
  · have htasks : w.tasks = [task] := by rw [Worker.tasks, htask]; rfl
    rw [htasks] at hwaiting
    simp only [ledger, waiting]
    refine .trans (List.Perm.append_left _ hwaiting.symm) ?_
    exact List.perm_middle
  · rw [hloop, List.nil_append] at hheld
    rw [← hresults]
    simp only [ledger, results, ← List.map_append, ← List.append_assoc]
    exact ((hheld.append_right _).append_right _).map _

/-- A worker hands a result over. -/
theorem booked_push {k : ℕ} {w : Worker Payload Result} {x : ExecutorResultItem Payload Result}
    {resultItems : List (ExecutorResultItem Payload Result)} (hw : s.workers[k]? = some w)
    (hloop : w.loop = .pushing (x :: resultItems)) :
    s.Booked { s with
      resultQueue := s.resultQueue ++ [x]
      workers := s.workers.set k { w with loop := .pushing resultItems } } := by
  refine .of_moved rfl (.of_eq ?_) rfl ?_ rfl
  · simp only [waiting]
    rw [flatMap_set_eq hw]
    rfl
  · have hperm := flatMap_set_perm hw { w with loop := .pushing resultItems } Worker.results
    have hresults : w.results = x :: resultItems := by rw [Worker.results, hloop]
    have hless : (x :: (s.workers.set k { w with loop := .pushing resultItems }).flatMap
        Worker.results).Perm (s.workers.flatMap Worker.results) := by
      rw [hresults] at hperm
      exact (List.perm_append_left_iff resultItems).mp (List.perm_middle.trans hperm)
    simp only [results]
    rw [List.append_assoc, List.singleton_append]
    refine (List.Perm.append_left _ List.perm_middle).trans ?_
    exact List.perm_middle.trans (hless.append_right _)

theorem Worked.booked {k : ℕ} (h : s.Worked k s') : s.Booked s' := by
  cases h with
  | kept hw _ _ htasks hresults => exact .of_worker hw htasks hresults
  | stopped hw _ hidle hresults hqueue hstop =>
      refine .of_moved rfl (.of_eq ?_) rfl (.of_eq ?_) rfl
      · simp only [waiting, hqueue]
        rw [List.filter_cons_of_neg (by simp [hstop]), flatMap_set_eq hw]
        rfl
      · simp only [results]
        rw [flatMap_set_eq hw]
        exact hresults.symm
  | added hw _ hidle hresults hqueue hstop => exact booked_addTask hw hidle hresults rfl hqueue hstop
  | ran hw hloop htask hresults =>
      exact booked_run hw htask (by rw [Worker.results, hloop]) hresults
  | threw => exact .of_moved rfl (.refl _) rfl (.refl _) rfl
  | pushed hw hloop => exact booked_push hw hloop

/-! ## The reaper -/

/-- Every result carries the id of its task and what its payload returned. -/
theorem labelled (h : s.ledger.Balanced ExecutorTaskItem.needsResult)
    {x : ExecutorResultItem Payload Result} (hx : x ∈ s.results ++ s.taken) :
    x.requestId = x.task.requestId ∧ (x.task, x.value) ∈ s.ran ∧ x.task.needsResult = true := by
  have hentry : x.entry ∈ s.ledger.held ++ s.ledger.taken := by
    rw [ledger, ← List.map_append]
    exact List.mem_map_of_mem hx
  obtain ⟨hran, hneeds⟩ := List.mem_filter.mp (h.results.mem_iff.mp hentry)
  obtain ⟨⟨task, value⟩, hmem, heq⟩ := List.mem_map.mp hran
  obtain ⟨rfl, hid, rfl⟩ : task = x.task ∧ task.requestId = x.requestId ∧ value = x.value := by
    simpa [ExecutorResultItem.entry] using heq
  exact ⟨hid.symm, hmem, hneeds⟩

/-- The results on their way have distinct ids. -/
theorem Distinct.results (h : s.Distinct) : (s.results.map (·.task.requestId)).Nodup := by
  rw [Distinct, WorkLedger.outstanding, List.map_append] at h
  have hheld := (List.nodup_append.mp h).2.1
  rw [ledger, List.map_map, List.map_map] at hheld
  exact hheld

/-- The next result is not cached yet. -/
theorem not_cached (hbalanced : s.ledger.Balanced ExecutorTaskItem.needsResult)
    (hdistinct : s.Distinct) {x : ExecutorResultItem Payload Result}
    {resultQueue : List (ExecutorResultItem Payload Result)}
    (hqueue : s.resultQueue = x :: resultQueue) : s.findCached x.requestId = none := by
  have hresults : s.results = s.workers.flatMap Worker.results ++
      (x :: resultQueue ++ s.completedResults) := by rw [Executor.results, hqueue]
  have hnodup := hdistinct.results
  rw [hresults, List.map_append, List.cons_append, List.map_cons] at hnodup
  have hnew := (List.nodup_cons.mp (List.nodup_append.mp hnodup).2.1).1
  refine List.find?_eq_none.mpr ?_
  intro y hy hid
  have hx := (labelled hbalanced (List.mem_append_left _ (by rw [hresults]; simp :
    x ∈ s.results))).1
  have hy' := (labelled hbalanced (List.mem_append_left _ (by rw [hresults]; simp [hy] :
    y ∈ s.results))).1
  refine hnew (List.mem_map.mpr ⟨y, List.mem_append_right _ hy, ?_⟩)
  rw [← hy', ← hx]
  exact of_decide_eq_true hid

theorem emplace_eq {x : ExecutorResultItem Payload Result} (h : s.findCached x.requestId = none) :
    s.emplace x = { s with completedResults := x :: s.completedResults } := by
  rw [emplace, h]
  rfl

theorem booked_enter (c : ReaperCall) (requestId : ℤ) : s.Booked (s.enter c requestId) := by
  unfold enter
  split
  · exact .of_moved rfl (.refl _) rfl (.refl _) rfl
  · next x hfound =>
    have hperm := perm_eraseP hfound
    have htake : s.Booked ((s.eraseCached requestId).answer c requestId true (some x)) := by
      refine .of_taken (x := x) rfl (.refl _) rfl ?_ rfl
      simp only [results, answer, eraseCached]
      refine .trans (((hperm.append_left _).append_left _)) ?_
      refine .trans (List.Perm.append_left _ List.perm_middle) ?_
      exact List.perm_middle
    split
    · exact .of_moved rfl (.refl _) rfl (.refl _) rfl
    · exact .of_moved rfl (.refl _) rfl (.refl _) rfl
    · exact htake
    · exact htake
    · exact htake

theorem booked_drain (hbalanced : s.ledger.Balanced ExecutorTaskItem.needsResult)
    (hdistinct : s.Distinct) (c : ReaperCall) (requestId : ℤ) :
    s.Booked (s.drain c requestId) := by
  unfold drain
  split
  · split
    · exact .of_moved rfl (.refl _) rfl (.refl _) rfl
    · exact .of_moved rfl (.refl _) rfl (.refl _) rfl
    · exact booked_enter ..
    · exact .refl s
    · exact .refl s
  · next x resultQueue hqueue =>
    have hnew := not_cached hbalanced hdistinct hqueue
    have hemplace := emplace_eq (s := { s with resultQueue }) hnew
    have hcached : ∀ s' : Executor Payload Result,
        s'.submitted = s.submitted → s'.waiting = s.waiting → s'.ran = s.ran →
        s'.workers = s.workers → s'.resultQueue = resultQueue →
        s'.completedResults = x :: s.completedResults → s'.taken = s.taken → s.Booked s' := by
      intro s' hsubmitted hwaiting hran hworkers hqueue' hcompleted htaken
      refine .of_moved hsubmitted (.of_eq hwaiting) hran ?_ htaken
      rw [results, results, hworkers, hqueue', hcompleted, hqueue]
      exact List.Perm.append_left _ List.perm_middle
    have htake : ∀ s' : Executor Payload Result,
        s'.submitted = s.submitted → s'.waiting = s.waiting → s'.ran = s.ran →
        s'.workers = s.workers → s'.resultQueue = resultQueue →
        s'.completedResults = s.completedResults → s'.taken = x :: s.taken → s.Booked s' := by
      intro s' hsubmitted hwaiting hran hworkers hqueue' hcompleted htaken
      refine .of_taken hsubmitted (.of_eq hwaiting) hran ?_ htaken
      rw [results, results, hworkers, hqueue', hcompleted, hqueue]
      exact List.perm_middle
    simp only [hemplace]
    split
    · split
      · exact hcached _ rfl rfl rfl rfl rfl rfl rfl
      · exact hcached _ rfl rfl rfl rfl rfl rfl rfl
    · split
      · exact hcached _ rfl rfl rfl rfl rfl rfl rfl
      · exact hcached _ rfl rfl rfl rfl rfl rfl rfl
    · split
      · exact htake _ rfl rfl rfl rfl rfl rfl rfl
      · exact hcached _ rfl rfl rfl rfl rfl rfl rfl
    · split
      · exact htake _ rfl rfl rfl rfl rfl rfl rfl
      · exact hcached _ rfl rfl rfl rfl rfl rfl rfl
    · split
      · next hid =>
        subst hid
        have hfound : (x :: s.completedResults).find? (fun y => y.requestId = x.requestId) = some x :=
          List.find?_cons_of_pos (by simp)
        have herase : (x :: s.completedResults).eraseP (fun y => y.requestId = x.requestId) =
          s.completedResults := List.eraseP_cons_of_pos (by simp)
        refine htake _ rfl rfl rfl rfl rfl herase ?_
        simp only [answer, taken, findCached, hfound]
        rfl
      · exact hcached _ rfl rfl rfl rfl rfl rfl rfl

/-! ## Every move is booked -/

theorem Moved.booked {a : ExecutorMove Payload Result} (h : s.Moved a s')
    (hidle : s.started = false → s.workers = [])
    (hbalanced : s.ledger.Balanced ExecutorTaskItem.needsResult) (hdistinct : s.Distinct) :
    s.Booked s' := by
  cases h with
  | started => exact booked_start _ hidle
  | refused => exact .refl s
  | submitted hid => exact booked_submit (by simpa [ExecutorTaskItem.isStop] using hid)
  | stopped => exact booked_stop
  | pushedStop => exact booked_pushStop
  | worked hworked => exact hworked.booked
  | entered => exact booked_enter ..
  | drained => exact booked_drain hbalanced hdistinct ..

end

end Executor

end

end InstantTensor
