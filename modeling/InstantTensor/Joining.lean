/-
# `InstantTensor.Joining` — when `join` returns

`join` pushes a stop item for each worker and waits for the workers to leave.  Nothing takes results
meanwhile, and a worker waits while the result queue is full.  So `join` returns just when the
results that have yet to pass through the result queue fit into it (`Executor.join_returns_iff`), and
then all payloads have run.

A worker with nothing to do goes round its loop without an effect.  Such a turn is left out
(`Executor.spins`); every other turn of a worker, and every push of a stop item, lowers what is left to
do.
-/
import InstantTensor.Reaping

namespace InstantTensor

section
variable {Payload Result : Type}

/-! ## What is left to do -/

/-- Turns a worker can still make with the item it has. -/
def Worker.toDo (w : Worker Payload Result) : ℕ :=
  match w.loop with
  | .popping receivedTask => if receivedTask then 5 else 0
  | .popped receivedTask => if receivedTask then 4 else 1
  | .pushing resultItems => resultItems.length + 1
  | .returned => 0

/-- The flag of the inner loop says whether there is a pending task. -/
structure Worker.Coherent (w : Worker Payload Result) : Prop where
  popping : ∀ receivedTask, w.loop = .popping receivedTask →
    w.driver.pendingTask.isSome = receivedTask
  popped : ∀ receivedTask, w.loop = .popped receivedTask →
    w.driver.pendingTask.isSome = receivedTask
  pushing : ∀ resultItems, w.loop = .pushing resultItems → w.driver.pendingTask = none

theorem Worker.Coherent.of_popping {w : Worker Payload Result} {receivedTask : Bool}
    (h : w.loop = .popping receivedTask) (hpending : w.driver.pendingTask.isSome = receivedTask) :
    w.Coherent := by
  refine ⟨?_, ?_, ?_⟩
  · intro _ hloop
    cases h.symm.trans hloop
    exact hpending
  · intro _ hloop
    cases h.symm.trans hloop
  · intro _ hloop
    cases h.symm.trans hloop

theorem Worker.Coherent.of_popped {w : Worker Payload Result} {receivedTask : Bool}
    (h : w.loop = .popped receivedTask) (hpending : w.driver.pendingTask.isSome = receivedTask) :
    w.Coherent := by
  refine ⟨?_, ?_, ?_⟩
  · intro _ hloop
    cases h.symm.trans hloop
  · intro _ hloop
    cases h.symm.trans hloop
    exact hpending
  · intro _ hloop
    cases h.symm.trans hloop

theorem Worker.Coherent.of_pushing {w : Worker Payload Result}
    {resultItems : List (ExecutorResultItem Payload Result)} (h : w.loop = .pushing resultItems)
    (hpending : w.driver.pendingTask = none) : w.Coherent := by
  refine ⟨?_, ?_, ?_⟩
  · intro _ hloop
    cases h.symm.trans hloop
  · intro _ hloop
    cases h.symm.trans hloop
  · intro _ _
    exact hpending

theorem Worker.Coherent.of_returned {w : Worker Payload Result} (h : w.Returned) : w.Coherent := by
  refine ⟨?_, ?_, ?_⟩
  · intro _ hloop
    cases h.symm.trans hloop
  · intro _ hloop
    cases h.symm.trans hloop
  · intro _ hloop
    cases h.symm.trans hloop

/-- The id under which a move submits a task for a result. -/
def ExecutorMove.submits : ExecutorMove Payload Result → Option ℤ
  | .submit requestId _ true => some requestId
  | _ => none

namespace Executor

/-- A stop item costs seven turns before it is pushed and six in the queue, as a task does. -/
def toDo (s : Executor Payload Result) : ℕ :=
  7 * s.stopping + 6 * s.taskQueue.length + (s.workers.map Worker.toDo).sum

/-- The results that have yet to pass through the result queue, or are in it. -/
def owing (s : Executor Payload Result) : ℕ :=
  (s.waiting.filter ExecutorTaskItem.needsResult).length +
    (s.workers.flatMap Worker.results).length + s.resultQueue.length

/-- Worker `k` would find the task queue empty, with nothing pending. -/
def spins (k : ℕ) (s : Executor Payload Result) : Bool :=
  match s.taskQueue, s.workers[k]? with
  | [], some w =>
      match w.loop with
      | .popping false => true
      | _ => false
  | _, _ => false

/-- What moves while `join` waits: `stop` pushes its items, and the workers go on.  No payload
throws. -/
def joinStep (taskQueueCapacity resultQueueCapacity : ℕ) (a : ExecutorMove Payload Result)
    (s : Executor Payload Result) : Option (Executor Payload Result) :=
  match a with
  | .pushStop => step taskQueueCapacity resultQueueCapacity .pushStop s
  | .work k (some value) =>
      if s.spins k then none
      else step taskQueueCapacity resultQueueCapacity (.work k (some value)) s
  | _ => none

section
variable {taskQueueCapacity resultQueueCapacity : ℕ} {s s' : Executor Payload Result}

/-! ## Fresh ids -/

/-- Ids that are used once are fresh. -/
theorem FreshIds.of_nodup {acts : List (ExecutorMove Payload Result)}
    (h : (acts.filterMap ExecutorMove.submits).Nodup) :
    FreshIds taskQueueCapacity resultQueueCapacity acts := by
  have hused : ∀ acts' (s : Executor Payload Result),
      exec (step taskQueueCapacity resultQueueCapacity) acts' {} = some s →
      ∀ t ∈ s.submitted, t.needsResult = true →
        t.requestId ∈ acts'.filterMap ExecutorMove.submits := by
    intro acts'
    induction acts' using List.reverseRecOn with
    | nil =>
        intro s hs t ht
        obtain rfl := Option.some.inj hs
        cases ht
    | append_singleton acts' a ih =>
        intro s hs t ht hneeds
        obtain ⟨s₁, hacts, ha⟩ := exec_concat.mp hs
        rw [List.filterMap_append]
        rcases (step_moved ha).submissions with hsame | ⟨_, _, needsResult, rfl, -, -, heq⟩
        · rw [hsame] at ht
          exact List.mem_append_left _ (ih s₁ hacts t ht hneeds)
        · rw [heq] at ht
          rcases List.mem_cons.mp ht with rfl | ht
          · obtain rfl : needsResult = true := hneeds
            exact List.mem_append_right _ (List.mem_singleton_self _)
          · exact List.mem_append_left _ (ih s₁ hacts t ht hneeds)
  intro acts' requestId payload s hle hs _ _ hmem
  obtain ⟨t, ht, hid⟩ := List.mem_map.mp ((List.diff_subset _ _) hmem)
  obtain ⟨ht, hneeds⟩ := List.mem_filter.mp ht
  have hbefore := hused acts' s hs t ht hneeds
  rw [hid] at hbefore
  have hnodup := (hle.sublist.filterMap ExecutorMove.submits).nodup h
  rw [List.filterMap_append] at hnodup
  exact (List.nodup_append.mp hnodup).2.2 _ hbefore _ (List.mem_singleton_self _) rfl

/-! ## A turn of a worker -/

/-- Worker `k` goes from `w` to `w'`. -/
structure Turned (resultQueueCapacity k : ℕ) (s s' : Executor Payload Result)
    (w w' : Worker Payload Result) : Prop where
  before : s.workers[k]? = some w
  workers : s'.workers = s.workers.set k w'
  coherent : w'.Coherent
  stopping : s'.stopping = s.stopping
  terminated : s'.terminated = s.terminated
  stopRequested : s'.stopRequested = s.stopRequested
  /-- A result is only pushed where there is room. -/
  room : s.resultQueue.length ≤ resultQueueCapacity → s'.resultQueue.length ≤ resultQueueCapacity
  toDo : s.spins k = false → 6 * s'.taskQueue.length + w'.toDo < 6 * s.taskQueue.length + w.toDo

theorem workerLoop_turned {k : ℕ} {outcome : Option Result}
    (hcoherent : ∀ w ∈ s.workers, w.Coherent)
    (h : s.workerLoop resultQueueCapacity k outcome = some s') :
    outcome = none ∧ s' = { s with terminated := true } ∨ ∃ w w', Turned resultQueueCapacity k s s' w w' := by
  obtain ⟨w, hw, h⟩ := Option.bind_eq_some_iff.mp h
  have hown := hcoherent w (List.mem_of_getElem? hw)
  cases hloop : w.loop with
  | popping receivedTask =>
      have hpending := hown.popping _ hloop
      have htoDo : w.toDo = if receivedTask then 5 else 0 := by rw [Worker.toDo, hloop]
      simp only [hloop] at h
      split at h
      · next hcan =>
        have hnone : w.driver.pendingTask.isSome = false := by
          simpa [FunctionWorkerDriver.canAddTask] using hcan
        obtain rfl : receivedTask = false := hpending.symm.trans hnone
        split at h
        · next hqueue =>
          obtain rfl := Option.some.inj h
          right
          refine ⟨w, _, hw, rfl, .of_popped rfl hnone, rfl, rfl, rfl, id, ?_⟩
          intro hspins
          simp [spins, hqueue, hw, hloop] at hspins
        · next task taskQueue hqueue =>
          split at h
          · obtain rfl := Option.some.inj h
            refine .inr ⟨w, _, hw, rfl, .of_returned rfl, rfl, rfl, rfl, id, ?_⟩
            intro _
            simp only [hqueue, List.length_cons, Worker.toDo]
            omega
          · obtain rfl := Option.some.inj h
            refine .inr ⟨w, _, hw, rfl, .of_popping rfl rfl, rfl, rfl, rfl, id, ?_⟩
            intro _
            simp only [hqueue, List.length_cons, Worker.toDo, ↓reduceIte]
            omega
      · next hcan =>
        obtain rfl := Option.some.inj h
        have hsome : w.driver.pendingTask.isSome = true := by
          simpa [FunctionWorkerDriver.canAddTask, ← Option.isSome_iff_ne_none] using hcan
        obtain rfl : receivedTask = true := hpending.symm.trans hsome
        refine .inr ⟨w, _, hw, rfl, .of_popped rfl hsome, rfl, rfl, rfl, id, ?_⟩
        intro _
        rw [htoDo]
        exact Nat.lt_succ_self _
  | popped receivedTask =>
      have hpending := hown.popped _ hloop
      have htoDo : w.toDo = if receivedTask then 4 else 1 := by rw [Worker.toDo, hloop]
      simp only [hloop] at h
      cases htask : w.driver.pendingTask with
      | none =>
          rw [htask] at hpending
          obtain rfl : receivedTask = false := hpending.symm
          simp only [FunctionWorkerDriver.hasPendingTasks, htask] at h
          obtain rfl := Option.some.inj h
          have hnone : w.driver.pendingTask.isSome = false := by rw [htask]; rfl
          refine .inr ⟨w, _, hw, rfl, .of_popping rfl hnone, rfl, rfl, rfl, id, ?_⟩
          intro _
          rw [htoDo]
          exact Nat.lt_succ_self _
      | some task =>
          rw [htask] at hpending
          obtain rfl : receivedTask = true := hpending.symm
          simp only [FunctionWorkerDriver.hasPendingTasks, FunctionWorkerDriver.processTasks,
            htask] at h
          cases outcome with
          | none =>
              obtain rfl := Option.some.inj h
              exact .inl ⟨rfl, rfl⟩
          | some value =>
              right
              cases hneeds : task.needsResult with
              | false =>
                  simp [hneeds] at h
                  subst h
                  refine ⟨w, _, hw, rfl, .of_pushing rfl rfl, rfl, rfl, rfl, id, ?_⟩
                  intro _
                  rw [htoDo]
                  exact Nat.add_lt_add_left (show 1 < 4 by decide) _
              | true =>
                  simp [hneeds] at h
                  subst h
                  refine ⟨w, _, hw, rfl, .of_pushing rfl rfl, rfl, rfl, rfl, id, ?_⟩
                  intro _
                  rw [htoDo]
                  exact Nat.add_lt_add_left (show 2 < 4 by decide) _
  | pushing resultItems =>
      have hnone := hown.pushing _ hloop
      have htoDo : w.toDo = resultItems.length + 1 := by rw [Worker.toDo, hloop]
      right
      cases resultItems with
      | nil =>
          simp only [hloop] at h
          obtain rfl := Option.some.inj h
          have hidle : w.driver.pendingTask.isSome = false := by rw [hnone]; rfl
          refine ⟨w, _, hw, rfl, .of_popping rfl hidle, rfl, rfl, rfl, id, ?_⟩
          intro _
          rw [htoDo]
          exact Nat.lt_succ_self _
      | cons x resultItems =>
          simp only [hloop] at h
          split at h
          · cases h
          · next hroom =>
            obtain rfl := Option.some.inj h
            refine ⟨w, _, hw, rfl, .of_pushing rfl hnone, rfl, rfl, rfl, ?_, ?_⟩
            · intro _
              rw [List.length_append, List.length_singleton]
              exact Nat.lt_of_not_le hroom
            · intro _
              rw [htoDo]
              exact Nat.lt_succ_self _
  | returned =>
      simp only [hloop] at h
      cases h

/-! ## What every move keeps -/

/-- The workers are coherent, and the result queue keeps to its capacity. -/
structure Bounded (resultQueueCapacity : ℕ) (s : Executor Payload Result) : Prop where
  workers : ∀ w ∈ s.workers, w.Coherent
  room : s.resultQueue.length ≤ resultQueueCapacity

theorem bounded_init : Bounded resultQueueCapacity ({} : Executor Payload Result) where
  workers := nofun
  room := Nat.zero_le _

theorem Bounded.congr (h : s.Bounded resultQueueCapacity) (hworkers : s'.workers = s.workers)
    (hqueue : s'.resultQueue.length ≤ s.resultQueue.length) : s'.Bounded resultQueueCapacity where
  workers := by
    rw [hworkers]
    exact h.workers
  room := hqueue.trans h.room

theorem Turned.bounded {k : ℕ} {w w' : Worker Payload Result}
    (ht : Turned resultQueueCapacity k s s' w w') (h : s.Bounded resultQueueCapacity) :
    s'.Bounded resultQueueCapacity := by
  refine ⟨?_, ht.room h.room⟩
  intro v hv
  rw [ht.workers] at hv
  rcases List.mem_or_eq_of_mem_set hv with hv | rfl
  · exact h.workers v hv
  · exact ht.coherent

theorem bounded_start (numWorkers : ℕ) (h : s.Bounded resultQueueCapacity) :
    (s.start numWorkers).Bounded resultQueueCapacity := by
  unfold start
  split
  · exact h
  · split
    · exact h
    · refine ⟨?_, h.room⟩
      intro w hw
      rw [List.eq_of_mem_replicate hw]
      exact .of_popping rfl rfl

theorem drain_resultQueue (c : ReaperCall) (requestId : ℤ) (s : Executor Payload Result) :
    (s.drain c requestId).resultQueue.length ≤ s.resultQueue.length := by
  unfold drain
  split
  · split
    · exact Nat.le_refl _
    · exact Nat.le_refl _
    · obtain ⟨_, _, _, heq⟩ := enter_frame .wait requestId s
      rw [heq]
    · exact Nat.le_refl _
    · exact Nat.le_refl _
  · next x resultQueue hqueue =>
    obtain ⟨_, heq⟩ := emplace_frame x { s with resultQueue }
    rw [hqueue]
    simp only [heq]
    split <;> split <;> exact Nat.le_succ _

theorem step_work {k : ℕ} {outcome : Option Result}
    (h : step taskQueueCapacity resultQueueCapacity (.work k outcome) s = some s') :
    s.terminated = false ∧ s.workerLoop resultQueueCapacity k outcome = some s' := by
  unfold step at h
  split at h
  · cases h
  · next hnot => exact ⟨Bool.eq_false_iff.mpr hnot, h⟩

theorem step_bounded {a : ExecutorMove Payload Result}
    (h : step taskQueueCapacity resultQueueCapacity a s = some s')
    (hs : s.Bounded resultQueueCapacity) : s'.Bounded resultQueueCapacity := by
  cases step_moved h with
  | started => exact bounded_start _ hs
  | refused => exact hs
  | submitted => exact hs.congr rfl (Nat.le_refl _)
  | stopped =>
      unfold stop
      split
      · exact hs
      · exact hs.congr rfl (Nat.le_refl _)
  | pushedStop => exact hs.congr rfl (Nat.le_refl _)
  | worked =>
      rcases workerLoop_turned hs.workers (step_work h).2 with ⟨-, rfl⟩ | ⟨w, w', ht⟩
      · exact hs.congr rfl (Nat.le_refl _)
      · exact ht.bounded hs
  | @entered c requestId =>
      obtain ⟨_, _, _, heq⟩ := enter_frame c requestId s
      rw [heq]
      exact hs.congr rfl (Nat.le_refl _)
  | @drained c requestId =>
      obtain ⟨_, _, _, _, heq⟩ := drain_frame c requestId s
      refine hs.congr ?_ (drain_resultQueue ..)
      rw [heq]

theorem exec_bounded {acts : List (ExecutorMove Payload Result)}
    (h : exec (step taskQueueCapacity resultQueueCapacity) acts {} = some s) :
    s.Bounded resultQueueCapacity :=
  (Run.of_exec h).invariant (fun _ _ hs hstep => step_bounded hstep.choose_spec hs) bounded_init

/-! ## What the results on their way are -/

theorem owing_add (s : Executor Payload Result) : s.owing + s.completedResults.length =
    (s.ledger.outstanding ExecutorTaskItem.needsResult).length := by
  simp only [owing, WorkLedger.outstanding, ledger, results, List.length_append, List.length_map]
  omega

theorem Booked.owing (h : s.Booked s') (hbalanced : s.ledger.Balanced ExecutorTaskItem.needsResult)
    (hsubmitted : s'.submitted = s.submitted) (hanswers : s'.answers = s.answers)
    (hcompleted : s'.completedResults = s.completedResults) : s'.owing = s.owing := by
  have hlength : (s'.ledger.outstanding ExecutorTaskItem.needsResult).length =
      (s.ledger.outstanding ExecutorTaskItem.needsResult).length := by
    rcases WorkLedger.Step.outstanding h hbalanced with hperm | ⟨t, hcons, -⟩ | ⟨x, hcons, -⟩
    · exact hperm.length_eq
    · have hbad := congrArg List.length (hsubmitted.symm.trans hcons)
      exact absurd hbad (Nat.ne_of_lt (Nat.lt_succ_self _))
    · have htaken : s'.taken = s.taken := by rw [taken, taken, hanswers]
      have hbad := congrArg List.length hcons
      simp [ledger, htaken] at hbad
  have hadd := owing_add s
  have hadd' := owing_add s'
  rw [hlength, hcompleted, ← hadd] at hadd'
  exact Nat.add_right_cancel hadd'

/-! ## While `join` waits -/

/-- `join` waits for the workers, with the tasks `tasks` submitted and `n` results on their way. -/
structure Joining (resultQueueCapacity : ℕ) (tasks : List (ExecutorTaskItem Payload)) (n : ℕ)
    (s : Executor Payload Result) : Prop where
  kept : s.Kept
  bounded : s.Bounded resultQueueCapacity
  stopRequested : s.stopRequested = true
  running : s.terminated = false
  submitted : s.submitted = tasks
  owing : s.owing = n

theorem joinStep_cases {a : ExecutorMove Payload Result}
    (h : joinStep taskQueueCapacity resultQueueCapacity a s = some s') :
    step taskQueueCapacity resultQueueCapacity a s = some s' ∧
      (a = .pushStop ∨ ∃ k value, a = .work k (some value) ∧ s.spins k = false) := by
  unfold joinStep at h
  split at h
  · exact ⟨h, .inl rfl⟩
  · next k value =>
    split at h
    · cases h
    · next hspins => exact ⟨h, .inr ⟨k, value, rfl, Bool.eq_false_iff.mpr hspins⟩⟩
  · cases h

theorem joining_step {tasks : List (ExecutorTaskItem Payload)} {n : ℕ}
    {a : ExecutorMove Payload Result}
    (h : Joining resultQueueCapacity tasks n s)
    (hstep : joinStep taskQueueCapacity resultQueueCapacity a s = some s') :
    Joining resultQueueCapacity tasks n s' ∧ s'.toDo < s.toDo := by
  obtain ⟨hstep, hcases⟩ := joinStep_cases hstep
  have hmoved := step_moved hstep
  have hbounded := step_bounded hstep h.bounded
  have hbooked := hmoved.booked (fun hnot => (h.kept.stopping.idle hnot).1) h.kept.balanced
    h.kept.distinct
  rcases hcases with rfl | ⟨k, value, rfl, hspins⟩
  · have hkept : s'.Kept := by
      refine hmoved.kept h.kept ?_
      intro _ _ hsubmit
      cases hsubmit
    cases hmoved with
    | @pushedStop m hm =>
        refine ⟨⟨hkept, hbounded, h.stopRequested, h.running, h.submitted, ?_⟩, ?_⟩
        · rw [← h.owing]
          exact hbooked.owing h.kept.balanced rfl rfl rfl
        · simp only [toDo, hm, List.length_append, List.length_singleton]
          omega
  · have hkept : s'.Kept := by
      refine hmoved.kept h.kept ?_
      intro _ _ hsubmit
      cases hsubmit
    cases hmoved with
    | worked hworked =>
        obtain ⟨hsubmitted, hanswers⟩ := hworked.frame
        have hcompleted : s'.completedResults = s.completedResults := by cases hworked <;> rfl
        rcases workerLoop_turned h.bounded.workers (step_work hstep).2 with ⟨hnone, -⟩ | ⟨w, w', ht⟩
        · cases hnone
        · refine ⟨⟨hkept, hbounded, ht.stopRequested.trans h.stopRequested,
            ht.terminated.trans h.running, hsubmitted.trans h.submitted, ?_⟩, ?_⟩
          · rw [← h.owing]
            exact hbooked.owing h.kept.balanced hsubmitted hanswers hcompleted
          · have hsum := sum_map_set ht.before w' Worker.toDo
            have hless := ht.toDo hspins
            rw [toDo, toDo, ht.workers, ht.stopping]
            omega

/-- A worker is never stuck but before a full result queue. -/
theorem workerLoop_some {k : ℕ} {w : Worker Payload Result} (hw : s.workers[k]? = some w)
    (hgoing : ¬ w.Returned) (hroom : w.results = [] ∨ s.resultQueue.length < resultQueueCapacity)
    (value : Result) : ∃ s', s.workerLoop resultQueueCapacity k (some value) = some s' := by
  simp only [workerLoop, hw, Option.bind_eq_bind, Option.bind_some]
  cases hloop : w.loop with
  | popping receivedTask =>
      simp only
      split
      · split
        · exact ⟨_, rfl⟩
        · split <;> exact ⟨_, rfl⟩
      · exact ⟨_, rfl⟩
  | popped receivedTask =>
      simp only
      split
      · exact ⟨_, rfl⟩
      · split <;> exact ⟨_, rfl⟩
  | pushing resultItems =>
      cases resultItems with
      | nil => exact ⟨_, rfl⟩
      | cons x resultItems =>
          rcases hroom with hnil | hroom
          · rw [Worker.results, hloop] at hnil
            cases hnil
          · simp only [if_neg (Nat.not_le_of_lt hroom)]
            exact ⟨_, rfl⟩
  | returned => exact absurd hloop hgoing

/-- Where the results on their way fit, some worker can go on or a stop item be pushed. -/
theorem joining_moves [Nonempty Result] {tasks : List (ExecutorTaskItem Payload)} {n : ℕ}
    (hcapacity : 0 < taskQueueCapacity) (h : Joining resultQueueCapacity tasks n s)
    (hn : n ≤ resultQueueCapacity) {w : Worker Payload Result} (hw : w ∈ s.workers)
    (hgoing : ¬ w.Returned) :
    ∃ a s', joinStep taskQueueCapacity resultQueueCapacity a s = some s' := by
  obtain ⟨k, hk⟩ := List.mem_iff_getElem?.mp hw
  have value : Result := Classical.arbitrary Result
  by_cases hspins : s.spins k = true
  · -- The queue is empty: the stop item of this worker has yet to be pushed.
    have hempty : s.taskQueue = [] := by
      unfold spins at hspins
      split at hspins
      · assumption
      · cases hspins
    have hstopping : s.stopping ≠ 0 := by
      intro hzero
      have htotal := h.kept.stopping.total
      rw [hempty, hzero, h.stopRequested, if_pos rfl, List.countP_nil, Nat.zero_add, Nat.add_zero,
        ← h.kept.stopping.length] at htotal
      have hall := List.countP_eq_length.mp htotal w hw
      exact hgoing (Worker.isReturned_iff.mp hall)
    obtain ⟨m, hm⟩ := Nat.exists_eq_succ_of_ne_zero hstopping
    refine ⟨.pushStop, { s with
      taskQueue := s.taskQueue ++ [ExecutorTaskItem.makeStop], stopping := m }, ?_⟩
    simp [joinStep, step, pushStop, h.running, hm, hempty, hcapacity.ne']
  · have hroom : w.results = [] ∨ s.resultQueue.length < resultQueueCapacity := by
      cases hresults : w.results with
      | nil => exact .inl rfl
      | cons x xs =>
          right
          have hx : x ∈ s.workers.flatMap Worker.results := by
            refine List.mem_flatMap.mpr ⟨w, hw, ?_⟩
            rw [hresults]
            exact List.mem_cons_self
          have hpos := List.length_pos_of_mem hx
          have howing := h.owing
          rw [owing] at howing
          omega
    obtain ⟨s', hs'⟩ := workerLoop_some hk hgoing hroom value
    refine ⟨.work k (some value), s', ?_⟩
    rw [joinStep, if_neg hspins]
    simpa [step, h.running] using hs'

/-- Where the workers have left, all results are in the result queue. -/
theorem Joining.returned {tasks : List (ExecutorTaskItem Payload)} {n : ℕ}
    (h : Joining resultQueueCapacity tasks n s) (hleft : ∀ w ∈ s.workers, w.Returned) :
    s.resultQueue.length = n := by
  have hwaiting := (h.kept.stopping.exited h.stopRequested hleft).1
  have hnone : s.workers.flatMap Worker.results = [] := by
    refine List.flatMap_eq_nil_iff.mpr ?_
    intro w hw
    rw [Worker.results, show w.loop = .returned from hleft w hw]
  rw [← h.owing, Executor.owing, hwaiting, hnone]
  simp

/-- **`join` returns, in whatever order its workers go on, just when the results on their way fit into
the result queue**, and then all payloads have run. -/
theorem join_returns_iff [Nonempty Result] (hcapacity : 0 < taskQueueCapacity)
    {acts : List (ExecutorMove Payload Result)}
    (h : exec (step taskQueueCapacity resultQueueCapacity) acts {} = some s)
    (hfresh : FreshIds taskQueueCapacity resultQueueCapacity acts)
    (hstop : s.stopRequested = true) (hrunning : s.terminated = false) :
    Inevitable (joinStep taskQueueCapacity resultQueueCapacity) (fun _ => True)
      (fun s' => (∀ w ∈ s'.workers, w.Returned) ∧ (s'.ran.map Prod.fst).Perm s.submitted) s ↔
      s.owing ≤ resultQueueCapacity := by
  have hjoining : Joining resultQueueCapacity s.submitted s.owing s :=
    ⟨exec_kept h hfresh, exec_bounded h, hstop, hrunning, rfl, rfl⟩
  constructor
  · intro hinevitable
    obtain ⟨s', hrun, hleft, -⟩ := hinevitable.exists_run
    have hjoining' : Joining resultQueueCapacity s.submitted s.owing s' :=
      hrun.invariant (fun _ _ hs hstep => (joining_step hs hstep.choose_spec).1) hjoining
    rw [← hjoining'.returned hleft]
    exact hjoining'.bounded.room
  · intro hfits
    refine Inevitable.of_measure (I := Joining resultQueueCapacity s.submitted s.owing) toDo
      ?_ ?_ hjoining
    · intro t ht hnot
      by_contra hstuck
      refine hnot ⟨?_, ?_⟩
      all_goals
        have hleft : ∀ w ∈ t.workers, w.Returned := by
          intro w hw
          by_contra hgoing
          obtain ⟨a, t', ha⟩ := joining_moves hcapacity ht hfits hw hgoing
          exact hstuck ⟨a, t', trivial, ha⟩
      · exact hleft
      · rw [← ht.submitted]
        exact (ht.kept.reliable.exited ht.stopRequested hleft).1
    · intro t ht _ a t' _ ha
      exact .inr (joining_step ht ha)

end

/-- Two tasks are submitted to one worker, and no result is asked for. -/
def twoTasks : List (ExecutorMove Unit ℕ) := [.start 1, .submit 0 () true, .submit 1 () true, .stop]

def twoTasksStopped : Executor Unit ℕ := (exec (step 4 2) twoTasks {}).getD {}

/-- The two results fit into a queue of two, and not into a queue of one. -/
theorem twoTasks_join :
    Inevitable (joinStep 4 2) (fun _ => True) (fun s' => (∀ w ∈ s'.workers, w.Returned) ∧
      (s'.ran.map Prod.fst).Perm twoTasksStopped.submitted) twoTasksStopped ∧
    ¬ Inevitable (joinStep 4 1) (fun _ => True) (fun s' => (∀ w ∈ s'.workers, w.Returned) ∧
      (s'.ran.map Prod.fst).Perm twoTasksStopped.submitted) twoTasksStopped := by
  have hrun : exec (step 4 2) twoTasks {} = some twoTasksStopped := rfl
  have hrun' : exec (step 4 1) twoTasks {} = some twoTasksStopped := rfl
  have htwo := join_returns_iff (by decide) hrun (FreshIds.of_nodup (by decide)) rfl rfl
  have hone := join_returns_iff (by decide) hrun' (FreshIds.of_nodup (by decide)) rfl rfl
  refine ⟨htwo.mpr (by decide), ?_⟩
  intro hreturns
  exact absurd (hone.mp hreturns) (by decide)

end Executor

end

end InstantTensor
