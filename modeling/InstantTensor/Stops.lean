/-
# `InstantTensor.Stops` — how the workers stop

`stop` puts one stop item for each worker behind the tasks, and a worker leaves at the first it
takes.  So where a worker has left, only stop items are in the queue (`Stopping.drained`), and
the stop items not pushed yet, in the queue, and consumed are as many as the workers
(`Stopping.total`).
-/
import InstantTensor.Results

namespace InstantTensor

section
variable {Payload Result : Type}

def Worker.isReturned (w : Worker Payload Result) : Bool :=
  match w.loop with
  | .returned => true
  | _ => false

theorem Worker.isReturned_iff {w : Worker Payload Result} : w.isReturned = true ↔ w.Returned := by
  obtain ⟨driver, loop, stops⟩ := w
  cases loop <;> simp [isReturned, Returned]

namespace Executor

structure Stopping (s : Executor Payload Result) : Prop where
  idle : s.started = false → s.workers = [] ∧ s.stopRequested = false
  running : s.started = true → s.workers ≠ []
  length : s.workers.length = s.workerCount
  /-- A worker consumes a stop item when it leaves, and leaves no task behind. -/
  consumed : ∀ w ∈ s.workers, w.stops = (if w.isReturned then 1 else 0) ∧
    (w.isReturned = true → w.tasks = [])
  /-- Behind a stop item there are only stop items. -/
  behind : s.taskQueue.Pairwise fun a b => a.isStop = true → b.isStop = true
  drained : (∃ w ∈ s.workers, w.isReturned = true) → ∀ t ∈ s.taskQueue, t.isStop = true
  total : s.taskQueue.countP ExecutorTaskItem.isStop + s.workers.countP Worker.isReturned +
    s.stopping = if s.stopRequested then s.workerCount else 0

section
variable {s s' : Executor Payload Result}

theorem stopping_init : Stopping ({} : Executor Payload Result) where
  idle := fun _ => ⟨rfl, rfl⟩
  running := nofun
  length := rfl
  consumed := by simp
  behind := .nil
  drained := by simp
  total := rfl

/-- What the reaper does, and what is only recorded. -/
theorem Stopping.congr (h : s.Stopping) (hstarted : s'.started = s.started)
    (hstop : s'.stopRequested = s.stopRequested) (hcount : s'.workerCount = s.workerCount)
    (hworkers : s'.workers = s.workers) (hqueue : s'.taskQueue = s.taskQueue)
    (hstopping : s'.stopping = s.stopping) : s'.Stopping := by
  refine ⟨?_, ?_, ?_, ?_, ?_, ?_, ?_⟩
  · rw [hstarted, hworkers, hstop]
    exact h.idle
  · rw [hstarted, hworkers]
    exact h.running
  · rw [hworkers, hcount]
    exact h.length
  · rw [hworkers]
    exact h.consumed
  · rw [hqueue]
    exact h.behind
  · rw [hworkers, hqueue]
    exact h.drained
  · rw [hworkers, hqueue, hstop, hcount, hstopping]
    exact h.total

/-- Before `stop` no stop item is anywhere. -/
theorem Stopping.before (h : s.Stopping) (hstop : s.stopRequested = false) :
    (∀ t ∈ s.taskQueue, t.isStop = false) ∧ (∀ w ∈ s.workers, w.isReturned = false) ∧
      s.stopping = 0 := by
  have htotal := h.total
  rw [hstop, if_neg Bool.false_ne_true] at htotal
  obtain ⟨hsum, hstopping⟩ := Nat.add_eq_zero_iff.mp htotal
  obtain ⟨hqueue, hworkers⟩ := Nat.add_eq_zero_iff.mp hsum
  refine ⟨?_, ?_, hstopping⟩
  · intro t ht
    simpa using List.countP_eq_zero.mp hqueue t ht
  · intro w hw
    simpa using List.countP_eq_zero.mp hworkers w hw

/-! ## The submitter -/

theorem stopping_start (numWorkers : ℕ) (h : s.Stopping) : (s.start numWorkers).Stopping := by
  unfold start
  split
  · exact h
  · split
    · exact h
    · next hstarted hstop =>
      have hstop : s.stopRequested = false := by simpa using hstop
      obtain ⟨hqueue, -, hstopping⟩ := h.before hstop
      have hfresh : ∀ n, ∀ w ∈ List.replicate n ({} : Worker Payload Result), w = {} :=
        fun n w hw => List.eq_of_mem_replicate hw
      refine ⟨nofun, ?_, List.length_replicate, ?_, h.behind, ?_, ?_⟩
      · intro _
        simp only [ne_eq, List.replicate_eq_nil_iff]
        split <;> omega
      · intro w hw
        rw [hfresh _ w hw]
        exact ⟨rfl, nofun⟩
      · rintro ⟨w, hw, hreturned⟩
        rw [hfresh _ w hw] at hreturned
        cases hreturned
      · have hnone : s.taskQueue.countP ExecutorTaskItem.isStop = 0 :=
          List.countP_eq_zero.mpr fun t ht => by simp [hqueue t ht]
        simp [hstop, hstopping, hnone, Worker.isReturned, List.countP_replicate]

theorem stopping_submit (h : s.Stopping) (hstop : s.stopRequested = false)
    {task : ExecutorTaskItem Payload} (htask : task.isStop = false) :
    Stopping { s with taskQueue := s.taskQueue ++ [task], submitted := task :: s.submitted } := by
  obtain ⟨hqueue, hworkers, -⟩ := h.before hstop
  refine ⟨h.idle, h.running, h.length, h.consumed, ?_, ?_, ?_⟩
  · refine List.pairwise_append.mpr ⟨h.behind, List.pairwise_singleton .., ?_⟩
    intro t ht _ _ hstop
    rw [hqueue t ht] at hstop
    cases hstop
  · rintro ⟨w, hw, hreturned⟩
    rw [hworkers w hw] at hreturned
    cases hreturned
  · simp only [List.countP_append, List.countP_cons_of_neg (Bool.eq_false_iff.mp htask),
      List.countP_nil, Nat.add_zero]
    exact h.total

theorem stopping_stop (h : s.Stopping) : s.stop.Stopping := by
  unfold stop
  split
  · exact h
  · next hgo =>
    obtain ⟨hstarted, hstop⟩ : s.started = true ∧ s.stopRequested = false := by simpa using hgo
    have htotal := h.total
    obtain ⟨-, -, hstopping⟩ := h.before hstop
    rw [hstop, hstopping, if_neg Bool.false_ne_true] at htotal
    refine ⟨?_, h.running, h.length, h.consumed, h.behind, h.drained, ?_⟩
    · intro hnot
      cases hstarted.symm.trans hnot
    · simp only [↓reduceIte]
      omega

theorem stopping_pushStop {n : ℕ} (h : s.Stopping) (hn : s.stopping = n + 1) :
    Stopping { s with
      taskQueue := s.taskQueue ++ [ExecutorTaskItem.makeStop]
      stopping := n } := by
  have hstop : (ExecutorTaskItem.makeStop : ExecutorTaskItem Payload).isStop = true := rfl
  have htotal := h.total
  rw [hn] at htotal
  refine ⟨h.idle, h.running, h.length, h.consumed, ?_, ?_, ?_⟩
  · refine List.pairwise_append.mpr ⟨h.behind, List.pairwise_singleton .., ?_⟩
    intro t _ u hu _
    rw [List.mem_singleton.mp hu]
    exact hstop
  · intro hreturned t ht
    rcases List.mem_append.mp ht with ht | ht
    · exact h.drained hreturned t ht
    · rw [List.mem_singleton.mp ht]
      exact hstop
  · simp only [List.countP_append, List.countP_cons_of_pos hstop, List.countP_nil]
    omega

/-! ## The workers -/

/-- A worker moves on, perhaps with the first item of the queue; it leaves if that is a stop item. -/
theorem Stopping.of_worker (h : s.Stopping) {k : ℕ} {w v : Worker Payload Result}
    (hw : s.workers[k]? = some w) (hrunning : w.isReturned = false)
    (hstops : v.stops = w.stops + if v.isReturned then 1 else 0)
    (htasks : v.isReturned = true → v.tasks = [])
    (hqueue : s'.taskQueue <:+ s.taskQueue)
    (hcount : s'.taskQueue.countP ExecutorTaskItem.isStop + (if v.isReturned then 1 else 0) =
      s.taskQueue.countP ExecutorTaskItem.isStop)
    (hdrained : v.isReturned = true → ∀ t ∈ s'.taskQueue, t.isStop = true)
    (hworkers : s'.workers = s.workers.set k v) (hstarted : s'.started = s.started)
    (hstop : s'.stopRequested = s.stopRequested) (hworkerCount : s'.workerCount = s.workerCount)
    (hstopping : s'.stopping = s.stopping) : s'.Stopping := by
  obtain ⟨ws₁, ws₂, hsplit, hset⟩ := set_split hw
  rw [hset v] at hworkers
  have hmem : ∀ u ∈ s'.workers, u = v ∨ u ∈ s.workers := by
    intro u hu
    rw [hworkers] at hu
    rw [hsplit]
    simp only [List.mem_append, List.mem_cons] at hu ⊢
    tauto
  have hfirst := (h.consumed w (List.mem_of_getElem? hw)).1
  rw [hrunning, if_neg Bool.false_ne_true] at hfirst
  refine ⟨?_, ?_, ?_, ?_, h.behind.sublist hqueue.sublist, ?_, ?_⟩
  · intro hnot
    rw [hstarted] at hnot
    have hnil := (h.idle hnot).1
    rw [hsplit] at hnil
    simp at hnil
  · intro _
    rw [hworkers]
    simp
  · have hlength := h.length
    rw [hsplit] at hlength
    rw [hworkers, hworkerCount, ← hlength]
    simp
  · intro u hu
    rcases hmem u hu with rfl | hu
    · rw [hfirst, Nat.zero_add] at hstops
      exact ⟨hstops, htasks⟩
    · exact h.consumed u hu
  · rintro ⟨u, hu, hreturned⟩ t ht
    rcases hmem u hu with rfl | hu
    · exact hdrained hreturned t ht
    · exact h.drained ⟨u, hu, hreturned⟩ t (hqueue.subset ht)
  · have htotal := h.total
    rw [hsplit] at htotal
    rw [hworkers, hstop, hworkerCount, hstopping, ← htotal, ← hcount]
    simp only [List.countP_append, List.countP_cons, hrunning, Bool.false_eq_true, ↓reduceIte]
    omega

theorem Worked.stopping {k : ℕ} (hworked : s.Worked k s') (h : s.Stopping) : s'.Stopping := by
  have hrunning : ∀ {w : Worker Payload Result}, ¬ w.Returned → w.isReturned = false := by
    intro w hw
    rw [Bool.eq_false_iff]
    exact fun hreturned => hw (Worker.isReturned_iff.mp hreturned)
  have hkept : ∀ {w w' : Worker Payload Result}, s.workers[k]? = some w →
      s'.workers = s.workers.set k w' → ¬ w.Returned → ¬ w'.Returned → w'.stops = w.stops →
      s'.taskQueue = s.taskQueue → s'.started = s.started → s'.stopRequested = s.stopRequested →
      s'.workerCount = s.workerCount → s'.stopping = s.stopping → s'.Stopping := by
    intro w w' hw hworkers hgoing hgoing' hstops hqueue hstarted hstop hcount hstopping
    have hstill := hrunning hgoing'
    have hsuffix : s'.taskQueue <:+ s.taskQueue := hqueue ▸ List.suffix_refl _
    refine h.of_worker hw (hrunning hgoing) ?_ ?_ hsuffix ?_ ?_ hworkers hstarted hstop hcount
      hstopping
    · simp [hstill, hstops]
    · simp [hstill]
    · simp [hstill, hqueue]
    · simp [hstill]
  cases hworked with
  | kept hw hgoing hgoing' => exact hkept hw rfl hgoing hgoing' rfl rfl rfl rfl rfl rfl
  | @stopped w task taskQueue hw hgoing hidle _ hqueue hstop =>
      have hbehind := h.behind
      rw [hqueue] at hbehind
      refine h.of_worker (v := { w with loop := .returned, stops := w.stops + 1 }) hw
        (hrunning hgoing) rfl (fun _ => hidle) ?_ ?_ ?_ rfl rfl rfl rfl rfl
      · rw [hqueue]
        exact List.suffix_cons ..
      · rw [hqueue, List.countP_cons_of_pos hstop]
        rfl
      · intro _ t ht
        exact (List.pairwise_cons.mp hbehind).1 t ht hstop
  | @added w task taskQueue hw hgoing _ _ hqueue hstop =>
      refine h.of_worker (v := { w with driver := w.driver.addTask task, loop := .popping true }) hw
        (hrunning hgoing) rfl ?_ ?_ ?_ ?_ rfl rfl rfl rfl rfl
      · intro hreturned
        cases hreturned
      · rw [hqueue]
        exact List.suffix_cons ..
      · rw [hqueue, List.countP_cons_of_neg (by simp [hstop])]
        rfl
      · intro hreturned
        cases hreturned
  | ran hw hloop =>
      refine hkept hw rfl (by simp [Worker.Returned, hloop]) ?_ rfl rfl rfl rfl rfl rfl
      intro hreturned
      cases hreturned
  | threw => exact h.congr rfl rfl rfl rfl rfl rfl
  | pushed hw hloop =>
      refine hkept hw rfl (by simp [Worker.Returned, hloop]) ?_ rfl rfl rfl rfl rfl rfl
      intro hreturned
      cases hreturned

/-! ## Every move -/

theorem Moved.stopping {a : ExecutorMove Payload Result} (hmoved : s.Moved a s') (h : s.Stopping) :
    s'.Stopping := by
  cases hmoved with
  | started => exact stopping_start _ h
  | refused => exact h
  | submitted hid _ hstop =>
      exact stopping_submit h hstop (by simpa [ExecutorTaskItem.isStop] using hid)
  | stopped => exact stopping_stop h
  | pushedStop hn => exact stopping_pushStop h hn
  | worked hworked => exact hworked.stopping h
  | @entered c requestId =>
      obtain ⟨_, _, _, heq⟩ := enter_frame c requestId s
      rw [heq]
      exact h.congr rfl rfl rfl rfl rfl rfl
  | @drained c requestId =>
      obtain ⟨_, _, _, _, heq⟩ := drain_frame c requestId s
      rw [heq]
      exact h.congr rfl rfl rfl rfl rfl rfl

/-- Where all workers have left, no task waits. -/
theorem Stopping.exited (h : s.Stopping) (hstop : s.stopRequested = true)
    (hleft : ∀ w ∈ s.workers, w.Returned) : s.waiting = [] ∧ ∀ w ∈ s.workers, w.stops = 1 := by
  have hreturned : ∀ w ∈ s.workers, w.isReturned = true :=
    fun w hw => Worker.isReturned_iff.mpr (hleft w hw)
  have hstarted : s.started = true := by
    by_contra hnot
    have hbefore := (h.idle (by simpa using hnot)).2
    cases hstop.symm.trans hbefore
  obtain ⟨w, hw⟩ := List.exists_mem_of_ne_nil _ (h.running hstarted)
  have hdrained := h.drained ⟨w, hw, hreturned w hw⟩
  refine ⟨?_, ?_⟩
  · rw [waiting, List.append_eq_nil_iff]
    refine ⟨List.filter_eq_nil_iff.mpr ?_, List.flatMap_eq_nil_iff.mpr ?_⟩
    · intro t ht
      simp [hdrained t ht]
    · intro v hv
      exact (h.consumed v hv).2 (hreturned v hv)
  · intro v hv
    rw [(h.consumed v hv).1, hreturned v hv]
    rfl

end

end Executor

end

end InstantTensor
