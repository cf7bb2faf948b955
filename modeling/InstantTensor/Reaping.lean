/-
# `InstantTensor.Reaping` — each result reaches its caller

In every state of the executor a task submitted for a result is in one place, its payload was run
at most once, and a call that takes a result takes that of the task with the id it asks for.  When
the workers have left, all tasks were run.  Only the ids matter for this: no task may be
submitted under the id of one whose result has yet to be taken.
-/
import Mathlib.Data.List.Induction
import Mathlib.Tactic.IntervalCases
import InstantTensor.Stops

namespace InstantTensor

/-! ## Ids -/

/-- The ids that `next_executor_request_id` gives, from the first. -/
def executorRequestId : ℕ → ℤ
  | 0 => 0
  | n + 1 => nextExecutorRequestId (executorRequestId n)

theorem nextExecutorRequestId_of_lt {n : ℕ} (h : n < 2 ^ 31) :
    nextExecutorRequestId n = ((n + 1) % 2 ^ 31 : ℕ) := by
  unfold nextExecutorRequestId
  rw [show (0x7fffffff : ℕ) = 2 ^ 31 - 1 from rfl, Nat.and_two_pow_sub_one_eq_mod]
  rw [toInt_of_lt (Nat.mod_lt _ (Nat.two_pow_pos 31))]
  omega

/-- The ids count up and start over. -/
theorem executorRequestId_eq (n : ℕ) : executorRequestId n = (n % 2 ^ 31 : ℕ) := by
  induction n with
  | zero => rfl
  | succ n ih =>
      rw [executorRequestId, ih, nextExecutorRequestId_of_lt (Nat.mod_lt _ (Nat.two_pow_pos 31))]
      omega

section
variable {Payload Result : Type}

/-! ## Answers -/

/-- The calls that take a result. -/
def ReaperCall.reaps : ReaperCall → Bool
  | .ready | .wait => false
  | .tryReap | .reap | .reapVoid => true

/-- A call takes a result if it is to and succeeds, one with the id it asks for. -/
structure Answer.Fits (a : Answer Payload Result) : Prop where
  taken : a.taken.isSome = (a.call.reaps && a.returned)
  requestId : ∀ x, a.taken = some x → x.requestId = a.requestId

namespace Executor

/-- The ids of the tasks submitted for a result, less those of the results taken. -/
def unreaped (s : Executor Payload Result) : List ℤ :=
  ((s.submitted.filter ExecutorTaskItem.needsResult).map ExecutorTaskItem.requestId).diff
    (s.answers.filterMap fun a => a.taken.map fun _ => a.requestId)

/-- No task is accepted for a result under the id of one that is unreaped. -/
def FreshIds (taskQueueCapacity resultQueueCapacity : ℕ)
    (acts : List (ExecutorMove Payload Result)) : Prop :=
  ∀ acts' requestId payload s, acts' ++ [.submit requestId payload true] <+: acts →
    exec (step taskQueueCapacity resultQueueCapacity) acts' {} = some s →
    s.started = true → s.stopRequested = false → requestId ∉ s.unreaped

structure Reliable (s : Executor Payload Result) : Prop where
  /-- The tickets tell the tasks submitted apart. -/
  numbered : (s.submitted.map ExecutorTaskItem.ticket).Nodup
  /-- Each task submitted for a result is in one place: the task queue, a worker, the result
  queue, the cache, or taken. -/
  place : ((s.taskQueue.filter (!·.isStop) ++ s.workers.flatMap Worker.tasks).filter
      ExecutorTaskItem.needsResult ++
    (s.workers.flatMap Worker.results ++ (s.resultQueue ++ s.completedResults) ++ s.taken).map
      ExecutorResultItem.task).Perm (s.submitted.filter ExecutorTaskItem.needsResult)
  /-- Each task waits or was run, once. -/
  once : (s.taskQueue.filter (!·.isStop) ++ s.workers.flatMap Worker.tasks ++
    s.ran.map Prod.fst).Perm s.submitted
  /-- A call that succeeds takes what the payload of the task with its id returned. -/
  reaped : ∀ a ∈ s.answers, a.call.reaps = true → a.returned = true →
    ∃ x, a.taken = some x ∧ x.task ∈ s.submitted ∧ x.task.needsResult = true ∧
      x.task.requestId = a.requestId ∧ (x.task, x.value) ∈ s.ran
  /-- Other calls take nothing. -/
  untouched : ∀ a ∈ s.answers, (a.call.reaps && a.returned) = false → a.taken = none
  /-- Where all workers have left, all tasks were run, and each took one stop item. -/
  exited : s.stopRequested = true → (∀ w ∈ s.workers, w.Returned) →
    (s.ran.map Prod.fst).Perm s.submitted ∧ ∀ w ∈ s.workers, w.stops = 1

section
variable {s s' : Executor Payload Result}

theorem fits_answer {c : ReaperCall} {requestId : ℤ} {returned : Bool}
    {taken : Option (ExecutorResultItem Payload Result)} (h : ∀ a ∈ s.answers, a.Fits)
    (htaken : taken.isSome = (c.reaps && returned))
    (hid : ∀ x, taken = some x → x.requestId = requestId) :
    ∀ a ∈ (s.answer c requestId returned taken).answers, a.Fits := by
  intro a ha
  rcases List.mem_cons.mp ha with rfl | ha
  · exact ⟨htaken, hid⟩
  · exact h a ha

theorem findCached_requestId {requestId : ℤ} {x : ExecutorResultItem Payload Result}
    (h : s.findCached requestId = some x) : x.requestId = requestId := by
  simpa using List.find?_some h

theorem findCached_emplace (s : Executor Payload Result) (x : ExecutorResultItem Payload Result) :
    ((s.emplace x).findCached x.requestId).isSome := by
  unfold emplace
  split
  · assumption
  · simp [findCached]

theorem fits_enter (c : ReaperCall) (requestId : ℤ) (h : ∀ a ∈ s.answers, a.Fits) :
    ∀ a ∈ (s.enter c requestId).answers, a.Fits := by
  unfold enter
  split
  · exact h
  · next x hfound =>
    have hid : ∀ y, some x = some y → y.requestId = requestId := by
      rintro y ⟨⟩
      exact findCached_requestId hfound
    split
    · exact fits_answer h rfl nofun
    · exact fits_answer h rfl nofun
    · exact fits_answer h rfl hid
    · exact fits_answer h rfl hid
    · exact fits_answer h rfl hid

theorem fits_drain (c : ReaperCall) (requestId : ℤ) (h : ∀ a ∈ s.answers, a.Fits) :
    ∀ a ∈ (s.drain c requestId).answers, a.Fits := by
  unfold drain
  split
  · split
    · exact fits_answer h rfl nofun
    · exact fits_answer h rfl nofun
    · exact fits_enter _ requestId h
    · exact h
    · exact h
  · next x resultQueue _ =>
    obtain ⟨_, heq⟩ := emplace_frame x { s with resultQueue }
    have hemplace : ∀ a ∈ (emplace x { s with resultQueue }).answers, a.Fits := by
      rw [heq]
      exact h
    simp only
    split
    · split
      · exact fits_answer hemplace rfl nofun
      · exact hemplace
    · split
      · exact fits_answer hemplace rfl nofun
      · exact hemplace
    · split
      · next hid => exact fits_answer h rfl (by rintro y ⟨⟩; exact hid)
      · exact hemplace
    · split
      · next hid => exact fits_answer h rfl (by rintro y ⟨⟩; exact hid)
      · exact hemplace
    · split
      · next hid =>
        have hsome := findCached_emplace { s with resultQueue } x
        rw [hid] at hsome
        exact fits_answer hemplace (by rw [hsome]; rfl) fun y hy => findCached_requestId hy
      · exact hemplace

theorem Worked.frame {k : ℕ} (h : s.Worked k s') :
    s'.submitted = s.submitted ∧ s'.answers = s.answers := by
  cases h <;> exact ⟨rfl, rfl⟩

theorem Moved.fits {a : ExecutorMove Payload Result} (hmoved : s.Moved a s')
    (h : ∀ a ∈ s.answers, a.Fits) : ∀ a ∈ s'.answers, a.Fits := by
  cases hmoved with
  | started => unfold start; split <;> [exact h; split <;> exact h]
  | refused => exact h
  | submitted => exact h
  | stopped => unfold stop; split <;> exact h
  | pushedStop => exact h
  | worked hworked => rw [hworked.frame.2]; exact h
  | entered => exact fits_enter _ _ h
  | drained => exact fits_drain _ _ h

/-- A task is submitted, or none. -/
theorem Moved.submissions {a : ExecutorMove Payload Result} (hmoved : s.Moved a s') :
    s'.submitted = s.submitted ∨ ∃ requestId payload needsResult,
      a = .submit requestId payload needsResult ∧ s.started = true ∧ s.stopRequested = false ∧
        s'.submitted = ⟨requestId, needsResult, some payload, s.submitted.length⟩ :: s.submitted := by
  cases hmoved with
  | started => left; unfold start; split <;> [rfl; split <;> rfl]
  | refused => exact .inl rfl
  | submitted _ hstarted hstop => exact .inr ⟨_, _, _, rfl, hstarted, hstop, rfl⟩
  | stopped => left; unfold stop; split <;> rfl
  | pushedStop => exact .inl rfl
  | worked hworked => exact .inl hworked.frame.1
  | @entered c requestId =>
      obtain ⟨_, _, _, heq⟩ := enter_frame c requestId s
      rw [heq]
      exact .inl rfl
  | @drained c requestId =>
      obtain ⟨_, _, _, _, heq⟩ := drain_frame c requestId s
      rw [heq]
      exact .inl rfl

/-! ## Runs -/

/-- The caller's view of what is outstanding is that of the executor. -/
theorem unreaped_perm (h : s.ledger.Balanced ExecutorTaskItem.needsResult)
    (hfits : ∀ a ∈ s.answers, a.Fits) : s.unreaped.Perm
      ((s.ledger.outstanding ExecutorTaskItem.needsResult).map ExecutorTaskItem.requestId) := by
  have htaken : (s.answers.filterMap fun a => a.taken.map fun _ => a.requestId) =
      s.ledger.taken.map fun x => x.1.requestId := by
    rw [ledger, List.map_map, taken, List.map_filterMap]
    refine List.filterMap_congr ?_
    intro a ha
    cases hx : a.taken with
    | none => rfl
    | some x =>
        have hmem : x ∈ s.results ++ s.taken :=
          List.mem_append_right _ (List.mem_filterMap.mpr ⟨a, ha, hx⟩)
        rw [Option.map_some, Option.map_some, ← (hfits a ha).requestId x hx, (labelled h hmem).1]
        rfl
  rw [unreaped, htaken]
  exact h.owing

/-- What every move keeps. -/
structure Kept (s : Executor Payload Result) : Prop where
  balanced : s.ledger.Balanced ExecutorTaskItem.needsResult
  distinct : s.Distinct
  stopping : s.Stopping
  fits : ∀ a ∈ s.answers, a.Fits
  tickets : s.submitted.map ExecutorTaskItem.ticket = (List.range s.submitted.length).reverse

theorem kept_init : Kept ({} : Executor Payload Result) where
  balanced := ⟨.refl _, .refl _⟩
  distinct := List.nodup_nil
  stopping := stopping_init
  fits := nofun
  tickets := rfl

theorem Moved.kept {a : ExecutorMove Payload Result} (hmoved : s.Moved a s') (h : s.Kept)
    (hfresh : ∀ requestId payload, a = .submit requestId payload true → s.started = true →
      s.stopRequested = false → requestId ∉ s.unreaped) : s'.Kept := by
  have hbooked := hmoved.booked (fun hnot => (h.stopping.idle hnot).1) h.balanced h.distinct
  refine ⟨hbooked.balanced h.balanced, ?_, hmoved.stopping h.stopping, hmoved.fits h.fits, ?_⟩
  · refine hbooked.distinct h.balanced h.distinct ?_
    intro t hsubmitted hneeds
    rcases hmoved.submissions with hsame | ⟨requestId, payload, needsResult, rfl, hstarted, hstop, heq⟩
    · have hlength := congrArg List.length (hsame.symm.trans hsubmitted)
      simp [ledger] at hlength
    · obtain ⟨rfl, -⟩ := List.cons_eq_cons.mp (heq.symm.trans hsubmitted)
      obtain rfl : needsResult = true := hneeds
      rw [← (unreaped_perm h.balanced h.fits).mem_iff]
      exact hfresh requestId payload rfl hstarted hstop
  · rcases hmoved.submissions with hsame | ⟨_, _, _, -, -, -, heq⟩
    · rw [hsame]
      exact h.tickets
    · rw [heq, List.map_cons, h.tickets, List.length_cons, List.range_succ, List.reverse_append]
      rfl

theorem exec_kept {taskQueueCapacity resultQueueCapacity : ℕ}
    {acts : List (ExecutorMove Payload Result)}
    (h : exec (step taskQueueCapacity resultQueueCapacity) acts {} = some s)
    (hfresh : FreshIds taskQueueCapacity resultQueueCapacity acts) : s.Kept := by
  induction acts using List.reverseRecOn generalizing s with
  | nil =>
      obtain rfl := Option.some.inj h
      exact kept_init
  | append_singleton acts a ih =>
      obtain ⟨s₁, hacts, ha⟩ := exec_concat.mp h
      have hkept := ih hacts fun acts' requestId payload s' hle =>
        hfresh acts' requestId payload s' (hle.trans (List.prefix_append ..))
      refine (step_moved ha).kept hkept ?_
      rintro requestId payload rfl
      exact hfresh acts requestId payload s₁ (List.prefix_refl _) hacts

theorem Kept.reliable (h : s.Kept) : s.Reliable := by
  have hplace := h.balanced.outstanding
  have honce := h.balanced.tasks
  simp only [WorkLedger.outstanding, ledger, List.map_map] at hplace honce
  have htickets : (s.submitted.map ExecutorTaskItem.ticket).Nodup := by
    rw [h.tickets]
    exact List.nodup_reverse.mpr List.nodup_range
  refine ⟨htickets, ?_, honce, ?_, ?_, ?_⟩
  · rw [List.append_assoc] at hplace
    rw [List.map_append]
    exact hplace
  · intro a ha hreaps hreturned
    have hsome := (h.fits a ha).taken
    rw [hreaps, hreturned] at hsome
    obtain ⟨x, hx⟩ := Option.isSome_iff_exists.mp hsome
    have hmem : x ∈ s.results ++ s.taken :=
      List.mem_append_right _ (List.mem_filterMap.mpr ⟨a, ha, hx⟩)
    obtain ⟨hid, hran, hneeds⟩ := labelled h.balanced hmem
    have hsubmitted : x.task ∈ s.submitted := honce.subset
      (List.mem_append_right _ (List.mem_map.mpr ⟨_, hran, rfl⟩))
    exact ⟨x, hx, hsubmitted, hneeds, hid.symm.trans ((h.fits a ha).requestId x hx), hran⟩
  · intro a ha hnot
    have hnone := (h.fits a ha).taken
    rw [hnot] at hnone
    exact Option.not_isSome_iff_eq_none.mp (Bool.eq_false_iff.mp hnone)
  · intro hstop hleft
    obtain ⟨hwaiting, hstops⟩ := h.stopping.exited hstop hleft
    refine ⟨?_, hstops⟩
    rw [show s.waiting = [] from hwaiting] at honce
    exact honce

end

end Executor

/-- **The executor loses, doubles and mixes up nothing**, as long as a task is only submitted for a
result under an id that no unreaped task has; `next_executor_request_id` gives ids of which
`2 ^ 31` in a row are distinct, and never that of a stop item. -/
theorem executor_reliable {taskQueueCapacity resultQueueCapacity : ℕ}
    {acts : List (ExecutorMove Payload Result)} {s : Executor Payload Result}
    (h : exec (Executor.step taskQueueCapacity resultQueueCapacity) acts {} = some s)
    (hfresh : Executor.FreshIds taskQueueCapacity resultQueueCapacity acts) :
    s.Reliable ∧
      (∀ n, executorRequestId n ≠ EXECUTOR_STOP_REQUEST_ID) ∧
      ∀ m n, executorRequestId m = executorRequestId n ↔ m % 2 ^ 31 = n % 2 ^ 31 := by
  refine ⟨(Executor.exec_kept h hfresh).reliable, ?_, ?_⟩
  · intro n
    rw [executorRequestId_eq, EXECUTOR_STOP_REQUEST_ID]
    omega
  · intro m n
    rw [executorRequestId_eq, executorRequestId_eq]
    exact Int.ofNat_inj

end

/-- Two workers and four tasks.  The result of 1 comes first and waits in the cache while 0 is reaped,
and 0 is an id again after that; the call for 2 finds what the second reaping of 0 has put there. -/
def outOfOrder : List (ExecutorMove Unit ℕ) :=
  [.start 2, .submit 0 () true, .submit 1 () true, .submit 2 () true,
    .work 0 none, .work 1 none, .work 1 none, .work 1 (some 11), .work 1 none, .work 1 none,
    .call .reap 0, .drain, .work 0 none, .work 0 (some 10), .work 0 none, .drain,
    .call .tryReap 1, .submit 0 () true, .stop, .pushStop, .pushStop,
    .work 1 none, .work 1 none, .work 1 (some 12), .work 1 none, .work 1 none,
    .work 0 none, .work 0 none, .work 0 none, .work 0 (some 13), .work 0 none, .work 0 none,
    .work 0 none, .work 1 none, .call .reap 0, .drain, .drain, .call .ready 2]

theorem executor_reliable_outOfOrder :
    let s := (exec (Executor.step 4 4) outOfOrder {}).get (by decide +kernel)
    s.Reliable ∧ (s.answers.map fun a => (a.requestId, a.taken.map (·.value)))
      = [(2, none), (0, some 13), (1, some 11), (0, some 10)] := by
  refine ⟨(@executor_reliable _ _ 4 4 outOfOrder _ (Option.some_get _).symm ?_).1, by decide +kernel⟩
  intro acts' requestId payload s' hle hs'
  obtain ⟨htake, hplace⟩ := take_of_concat_prefix hle
  have hlt := (List.getElem?_eq_some_iff.mp hplace).1
  rw [htake] at hs'
  generalize acts'.length = n at hplace hlt hs'
  change n < 38 at hlt
  interval_cases n
  all_goals cases hplace
  -- the four moves that submit
  all_goals
    obtain rfl := Option.some.inj hs'
    intro _ _ hmem
    revert hmem
    decide

end InstantTensor
