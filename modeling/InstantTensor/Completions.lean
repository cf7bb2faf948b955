/-
# `InstantTensor.Completions` — one queue of completions, and the counters of many chunks

AIO and URING deliver the completions of all chunks in one queue.  A task of `cuda_thread` takes
them in the order they come, whatever chunk they belong to, and goes on to copy its chunk when
the counter of that chunk is down to zero.  The counters stay exact in every interleaving
(`Load.completions_exact`): a counter is what its chunk's reads are more than the completions
of it that have been taken, each completion still in the queue is covered by its counter, and
a task finds no fewer completions on their way than it asks the kernel for.

Most of this is `Accounted`; what it leaves open is `Placed`: chunks not yet posted have not been
counted for, and the reads at one thread all belong to the chunk it is working on.
-/
import InstantTensor.ShortReads

namespace InstantTensor

namespace Pipeline

variable {l : Load} {gets : List ℕ} {s s' : Pipeline}

/-! ## Where the reads of a chunk are -/

structure Placed (s : Pipeline) : Prop where
  /-- The counters beyond the last posted chunk are as they were constructed. -/
  untouched : ∀ c, s.loader.chunkReading < c → s.unfinishedCnt c = 0
  posting : ∀ posting, s.posting = some posting →
    ∀ r ∈ posting.reads, r.chunkId = posting.task.chunkId
  lastPage : ∀ job ∈ s.lastPage, ∀ r ∈ job.reads, r.chunkId = job.chunkId

/-- An outstanding read belongs to a posted chunk. -/
theorem Accounted.posted_of_outstanding [IoEvent] (h : Accounted l s) {r : Read} (hr : r ∈ s.outstanding) :
    r.chunkId ≤ s.loader.chunkReading :=
  (h.between _ (h.awaited.subset (h.due r hr))).2

/-- Taking completions changes the counters of chunks in the queue only. -/
theorem consume_unfinishedCnt [IoEvent] (args : OpenArgs) (n : ℕ) {c : ℤ} (s : Pipeline)
    (hc : ∀ e ∈ s.completed, e.1.chunkId ≠ c) :
    (consume args n s).unfinishedCnt c = s.unfinishedCnt c := by
  induction n generalizing s with
  | zero => rfl
  | succ n ih =>
      rw [consume]
      split
      · rfl
      next r result completed hcompleted =>
      split
      · rfl
      rw [hcompleted] at hc
      rw [ih _ fun e he => hc e (List.mem_cons_of_mem _ he)]
      exact Function.update_of_ne (Ne.symm (hc _ List.mem_cons_self)) _ _

theorem consume_posting [IoEvent] (args : OpenArgs) (n : ℕ) (s : Pipeline) :
    (consume args n s).posting = s.posting ∧ (consume args n s).lastPage = s.lastPage := by
  induction n generalizing s with
  | zero => exact ⟨rfl, rfl⟩
  | succ n ih =>
      rw [consume]
      split
      · exact ⟨rfl, rfl⟩
      split
      · exact ⟨rfl, rfl⟩
      · exact ih _

theorem Placed.acts [IoEvent] (h : Placed s) (hkept : Accounted l s) (hacts : Acts l.args s s') :
    Placed s' := by
  cases hacts with
  | submit hposting =>
      refine { h with posting := ?_ }
      rintro _ ⟨⟩ r hr
      exact h.posting _ hposting r (List.mem_of_mem_drop hr)
  | hand => exact { h with posting := fun _ hposting => by cases hposting }
  | @lastPage job jobs n hjobs =>
      refine { h with lastPage := ?_ }
      intro job' hjob' r hr
      rcases List.mem_cons.mp hjob' with rfl | hjob'
      · exact h.lastPage job (hjobs ▸ List.mem_cons_self) r (List.mem_of_mem_drop hr)
      · exact h.lastPage job' (hjobs ▸ List.mem_cons_of_mem _ hjob') r hr
  | lastPageDone hjobs =>
      exact { h with lastPage := fun job hjob => h.lastPage job (hjobs ▸ List.mem_cons_of_mem _ hjob) }
  | @count _ _ n =>
      obtain ⟨hposting, hlast⟩ := consume_posting l.args n s
      refine ⟨?_, hposting ▸ h.posting, hlast ▸ h.lastPage⟩
      intro c hc
      rw [consume_loader] at hc
      rw [consume_unfinishedCnt]
      · exact h.untouched c hc
      · intro e he heq
        have hle := hkept.posted_of_outstanding (List.mem_append_right _ (List.mem_map_of_mem he))
        omega
  | _ => exact { h with }

/-- What a backend has before it when it begins to post a chunk belongs to that chunk. -/
theorem Placed.postReads (h : Placed s) (pageSize : ℕ) (args : OpenArgs) (p : ChunkIOParams)
    (hp : p.chunkId ≤ s.loader.chunkReading) : Placed (postReads pageSize args p s) := by
  have hreads : ∀ r ∈ issued (initBuffer pageSize args) args p, r.chunkId = p.chunkId := by
    intro r hr
    rw [issued_eq] at hr
    exact chunkId_of_mem_wanted _ _ _ hr
  have huntouched : ∀ n : ℕ, ∀ c, s.loader.chunkReading < c →
      Function.update s.unfinishedCnt p.chunkId n c = 0 := by
    intro n c hc
    rw [Function.update_of_ne (by omega)]
    exact h.untouched c hc
  cases hb : args.backend with
  | AIO | AIO_BUFFERED =>
      simp only [Pipeline.postReads, hb]
      split
      · refine ⟨huntouched _, ?_, ?_⟩
        · rintro _ ⟨⟩ r hr
          exact absurd hr List.not_mem_nil
        · intro job hjob
          rcases List.mem_append.mp hjob with hjob | hjob
          · exact h.lastPage job hjob
          · rw [List.mem_singleton.mp hjob]
            exact hreads
      · refine ⟨huntouched _, ?_, h.lastPage⟩
        rintro _ ⟨⟩
        exact hreads
  | URING | URING_BUFFERED =>
      simp only [Pipeline.postReads, hb]
      refine ⟨huntouched _, ?_, h.lastPage⟩
      rintro _ ⟨⟩
      exact hreads
  | CUFILE | MMAP =>
      simp only [Pipeline.postReads, hb]
      refine ⟨h.untouched, ?_, h.lastPage⟩
      rintro _ ⟨⟩
      exact hreads

theorem Placed.loaderTurn [IoEvent] (h : Placed s) (hkept : Kept l gets s) {arrived : Bool}
    (hturn : Pipeline.loaderTurn l.pageSize l.args arrived s = some s') : Placed s' := by
  rcases loaderTurn_cases hturn with ⟨reason, rfl⟩ | ⟨loader, hposting, hnext, hcases⟩
  · exact { h with }
  rcases hcases with ⟨hposts, chunk, hchunk, rfl⟩ | ⟨hstays, rfl⟩
  · obtain ⟨-, hreading, -⟩ := hkept.loader_reading hnext hposts
    refine Placed.postReads (s := { s with loader }) ?_ _ _ _ (Int.le_refl _)
    exact { h with untouched := fun c hc => h.untouched c (by simp only at hc; omega) }
  · exact { h with untouched := fun c hc => h.untouched c (hstays ▸ hc) }

theorem Placed.step [IoEvent] (h : Placed s) (hkept : Kept l gets s)
    (hstep : Step (Pipeline.next l.pageSize l.args) s s') : Placed s' := by
  obtain ⟨t, hnext⟩ := hstep
  unfold Pipeline.next at hnext
  split at hnext
  · cases hnext
  rcases turn_cases hnext with ⟨arrived, -, hturn⟩ | hacts
  · exact h.loaderTurn hkept hturn
  · exact h.acts hkept.accounted hacts

/-! ## The counters -/

/-- The reads of a chunk, among those of all chunks up to `n`. -/
theorem countP_readsUpTo (l : Load) {n : ℤ} (hn : -1 ≤ n) (c : ℕ) :
    ((l.readsUpTo n).countP fun r => decide (r.chunkId = (c : ℤ)))
      = if (c : ℤ) ≤ n then (l.reads c).length else 0 := by
  induction n, hn using Int.leInduction with
  | base =>
      have : ¬(c : ℤ) ≤ -1 := by omega
      rw [if_neg this]
      rfl
  | succ n hn ih =>
      rw [Load.readsUpTo_succ hn, List.countP_append, ih,
        countP_chunk fun r hr => Load.chunkId_of_mem_reads hr]
      by_cases heq : c = (n + 1).toNat
      · subst heq
        rw [if_neg (by omega), if_pos rfl, if_pos (by omega), Nat.zero_add]
      · rw [if_neg (show (c : ℤ) ≠ ((n + 1).toNat : ℤ) by omega), Nat.add_zero]
        by_cases hle : (c : ℤ) ≤ n
        · rw [if_pos hle, if_pos (by omega)]
        · rw [if_neg hle, if_neg (by omega)]

/-- The loader's counters start at -1 and only grow. -/
theorem Kept.ge [IoEvent] (h : Kept l gets s) :
    -1 ≤ s.loader.chunkRead ∧ s.loader.chunkRead ≤ s.loader.chunkReading := by
  rcases l.run_start h.loader with hstart | hrun
  · rw [hstart]
    exact ⟨Int.le_refl _, Int.le_refl _⟩
  · have ho := l.run_opened (l.opened_opened gets) hrun
    exact ⟨ho.read_ge, ho.read_le⟩

/-- Outstanding and taken reads together are those of the posted chunks. -/
theorem Accounted.perm [IoEvent] (h : Accounted l s) :
    (s.outstanding ++ s.consumed.map Prod.fst).Perm (l.readsUpTo s.loader.chunkReading) := by
  refine List.perm_iff_count.mpr fun r => ?_
  rw [List.count_append]
  exact h.balance r

/-- The bookkeeping of the completions, in one state. -/
structure CompletionsExact [IoEvent] (l : Load) (s : Pipeline) : Prop where
  /-- A counter is the number of its chunk's reads less the completions taken. -/
  counted : ∀ c : ℕ, s.unfinishedCnt c + s.consumed.countP (fun e => decide (e.1.chunkId = (c : ℤ)))
    = if (c : ℤ) ≤ s.loader.chunkReading then (l.reads c).length else 0
  /-- So many completions of a chunk as are in the queue can be counted without underflow. -/
  covered : ∀ c : ℕ, s.completed.countP (fun e => decide (e.1.chunkId = (c : ℤ))) ≤ s.unfinishedCnt c
  /-- A task goes on to copy its chunk with all reads of the chunk completed and taken. -/
  copied : ∀ s', next l.pageSize l.args .cudaDone s = some s' →
    ∃ (c : ℕ) (task : Task), s.cuda.head? = some task ∧ task.chunkId = c ∧
      s'.cuda = s.cuda.tail ∧
      ∀ r ∈ l.reads c, r ∉ s.outstanding ∧ ∃ result, (r, result) ∈ s.consumed
  /-- A task asks for no more completions than have yet to be taken. -/
  awaited : ∀ task, s.cuda.head? = some task → s.submitted task = true →
    l.args.backend.batch (s.unfinishedCnt task.chunkId) ≤ s.inFlight.length + s.completed.length

section
variable [IoEvent] (hb : l.args.backend.counts = true)
include hb

theorem Kept.counted (h : Kept l gets s) (hp : Placed s) (c : ℕ) :
    s.unfinishedCnt c + s.consumed.countP (fun e => decide (e.1.chunkId = (c : ℤ)))
      = if (c : ℤ) ≤ s.loader.chunkReading then (l.reads c).length else 0 := by
  have hge : -1 ≤ s.loader.chunkReading := h.ge.1.trans h.ge.2
  have hall := h.accounted.perm.countP_eq fun r => decide (r.chunkId = (c : ℤ))
  rw [List.countP_append, List.countP_map, countP_readsUpTo l hge] at hall
  rw [← hall]
  by_cases hle : (c : ℤ) ≤ s.loader.chunkReading
  · rw [h.accounted.counted hb c hle]
    rfl
  · have hnone : s.outstanding.countP (fun r => decide (r.chunkId = (c : ℤ))) = 0 :=
      List.countP_eq_zero.mpr fun r hr hid => by
        have hposted := h.accounted.posted_of_outstanding hr
        have := of_decide_eq_true hid
        omega
    rw [hp.untouched c (not_le.mp hle), hnone]
    rfl

theorem Kept.covered (h : Kept l gets s) (c : ℕ) :
    s.completed.countP (fun e => decide (e.1.chunkId = (c : ℤ))) ≤ s.unfinishedCnt c := by
  have hsub : s.completed.countP (fun e => decide (e.1.chunkId = (c : ℤ)))
      ≤ s.outstanding.countP fun r => decide (r.chunkId = (c : ℤ)) := by
    rw [outstanding, List.countP_append, List.countP_map]
    exact Nat.le_add_left _ _
  by_cases hle : (c : ℤ) ≤ s.loader.chunkReading
  · rw [h.accounted.counted hb c hle]
    exact hsub
  · have hnone : s.completed.countP (fun e => decide (e.1.chunkId = (c : ℤ))) = 0 :=
      List.countP_eq_zero.mpr fun e he hid => by
        have hposted := h.accounted.posted_of_outstanding
          (List.mem_append_right _ (List.mem_map_of_mem (f := Prod.fst) he))
        have := of_decide_eq_true hid
        omega
    rw [hnone]
    exact Nat.zero_le _

omit hb in
theorem Kept.copied (h : Kept l gets s) (hnext : next l.pageSize l.args .cudaDone s = some s') :
    ∃ (c : ℕ) (task : Task), s.cuda.head? = some task ∧ task.chunkId = c ∧
      s'.cuda = s.cuda.tail ∧
      ∀ r ∈ l.reads c, r ∉ s.outstanding ∧ ∃ result, (r, result) ∈ s.consumed := by
  unfold next at hnext
  split at hnext
  · cases hnext
  simp only [turn] at hnext
  split at hnext
  · cases hnext
  next task rest hcuda =>
  split at hnext
  · next hdone =>
    cases hnext
    obtain ⟨-, hfinished⟩ := Bool.and_eq_true_iff.mp hdone
    have htask : task ∈ s.tasks := List.mem_append_left _ (hcuda ▸ List.mem_cons_self)
    have hnone := (h.accounted.finished_iff htask).mp hfinished
    obtain ⟨hread, hreading⟩ := h.accounted.between _ (h.accounted.mem_waiting htask)
    have hge := h.ge.1
    refine ⟨task.chunkId.toNat, task, by rw [hcuda]; rfl, by omega, by rw [hcuda]; rfl, ?_⟩
    intro r hr
    have hid : r.chunkId = task.chunkId := by
      rw [Load.chunkId_of_mem_reads hr]
      omega
    have hout : r ∉ s.outstanding := fun hout => hnone r hout hid
    refine ⟨hout, ?_⟩
    have hposted : r ∈ l.readsUpTo s.loader.chunkReading :=
      Load.mem_readsUpTo.mpr ⟨_, by omega, hr⟩
    have hmem := (List.mem_append.mp (h.accounted.perm.mem_iff.mpr hposted)).resolve_left hout
    obtain ⟨⟨r', result⟩, he, rfl⟩ := List.mem_map.mp hmem
    exact ⟨result, he⟩
  · cases hnext

theorem Kept.awaited (h : Kept l gets s) (hp : Placed s) {task : Task}
    (hhead : s.cuda.head? = some task) (hsubmitted : s.submitted task = true) :
    l.args.backend.batch (s.unfinishedCnt task.chunkId)
      ≤ s.inFlight.length + s.completed.length := by
  obtain ⟨rest, hcuda⟩ := List.head?_eq_some_iff.mp hhead
  have htask : task ∈ s.tasks := List.mem_append_left _ (hcuda ▸ List.mem_cons_self)
  have hbatch : l.args.backend.batch (s.unfinishedCnt task.chunkId)
      ≤ s.unfinishedCnt task.chunkId := by
    unfold Backend.batch
    split <;> omega
  -- the reads that are not submitted yet belong to other chunks
  have hposting : (s.posting.toList.flatMap Posting.reads).countP
      (fun r => decide (r.chunkId = task.chunkId)) = 0 := by
    refine List.countP_eq_zero.mpr fun r hr hid => ?_
    obtain ⟨posting, hmem, hr⟩ := List.mem_flatMap.mp hr
    have hlt := h.accounted.tasks_sorted
    rw [tasks, hcuda, List.cons_append, List.map_cons] at hlt
    have hafter := (List.pairwise_cons.mp hlt).1 posting.task.chunkId
      (List.mem_map_of_mem (List.mem_append_right _ (List.mem_map_of_mem hmem)))
    have hown := hp.posting posting (Option.mem_toList.mp hmem) r hr
    have := of_decide_eq_true hid
    omega
  have hlast : (s.lastPage.flatMap Job.reads).countP
      (fun r => decide (r.chunkId = task.chunkId)) = 0 := by
    refine List.countP_eq_zero.mpr fun r hr hid => ?_
    obtain ⟨job, hjob, hr⟩ := List.mem_flatMap.mp hr
    have hother := of_decide_eq_true (List.all_eq_true.mp hsubmitted job hjob)
    exact hother ((hp.lastPage job hjob r hr).symm.trans (of_decide_eq_true hid))
  have hle := (h.accounted.between _ (h.accounted.mem_waiting htask)).2
  have hcount := h.accounted.counted hb _ hle
  rw [outstanding, List.countP_append, List.countP_append, List.countP_append, hposting, hlast]
    at hcount
  have hflight := List.countP_le_length (p := fun r => decide (r.chunkId = task.chunkId))
    (l := s.inFlight)
  have hqueue := List.countP_le_length (p := fun r => decide (r.chunkId = task.chunkId))
    (l := s.completed.map Prod.fst)
  rw [List.length_map] at hqueue
  omega

end

end Pipeline

/-- **In every interleaving the counters of AIO and URING are exact, a chunk is copied only with
all its reads completed, and no task waits for completions that are not to come.** -/
theorem Load.completions_exact [IoEvent] (l : Load) (gets : List ℕ) (hb : l.args.backend.counts = true)
    {s : Pipeline} (h : Run (Pipeline.next l.pageSize l.args) (l.pipeline gets) s) :
    Pipeline.CompletionsExact l s := by
  have hinv : Pipeline.Kept l gets s ∧ Pipeline.Placed s := by
    refine Run.invariant (P := fun s => Pipeline.Kept l gets s ∧ Pipeline.Placed s) ?_ h ⟨?_, ?_⟩
    · rintro s s' ⟨hkept, hp⟩ hstep
      exact ⟨hkept.step hstep, hp.step hkept hstep⟩
    · exact ⟨Run.refl _, l.pipeline_accounted gets⟩
    · exact ⟨fun _ _ => rfl, fun _ hposting => (by cases hposting),
        fun _ hjob => absurd hjob List.not_mem_nil⟩
  obtain ⟨hkept, hp⟩ := hinv
  exact {
    counted := hkept.counted hb hp
    covered := hkept.covered hb
    copied := fun s' hnext => hkept.copied hnext
    awaited := fun task hhead hsubmitted => hkept.awaited hb hp hhead hsubmitted }

/-- A tensor of 8000 bytes behind a header of 100, read by AIO in two chunks. -/
def twoChunks : Load := Load.of 4096 {
    rank := 0
    worldSize := 1
    bufferSize := 8000
    chunkSize := 4096
    numThreads := 1
    ioDepth := 2
    backend := Backend.AIO
    tensorOffsets := [(0, 100), (0, 8100)] } (by decide)

/-- The read of the second chunk, which ends inside a page. -/
def secondRead : Read where
  chunkId := 1
  thread := 0
  size := 4004
  request := 4096
  fileIndex := 0
  fileOffset := 4096
  bufferOffset := 4096

/-- Both chunks are in flight, the second one completes first, and the task of the first one takes
its completion. -/
theorem completions_exact_twoChunks : ∃ (s : Pipeline) (task task' : Task),
    s.cuda = [task, task'] ∧ task.chunkId = 0 ∧ task'.chunkId = 1 ∧
      s.consumed = [(secondRead, 4004)] ∧ s.unfinishedCnt 0 = 1 ∧ s.unfinishedCnt 1 = 0 ∧
      Pipeline.CompletionsExact twoChunks s := by
  have hplay : (exec (Pipeline.next twoChunks.pageSize twoChunks.args)
      [.loader true, .loader true, .submit 1, .hand, .loader true, .loader true, .loader true, .hand,
        .lastPage 1, .lastPageDone, .complete secondRead 4004, .take 1]
      (twoChunks.pipeline [0])).any (fun s => decide (s.cuda = [⟨0, []⟩, ⟨1, []⟩]) &&
        (decide (s.consumed = [(secondRead, 4004)]) &&
          (decide (s.unfinishedCnt 0 = 1) && decide (s.unfinishedCnt 1 = 0)))) = true := by
    decide +kernel
  obtain ⟨s, hrun, hs⟩ := Run.exists_of_exec hplay
  obtain ⟨hcuda, hs⟩ := Bool.and_eq_true_iff.mp hs
  obtain ⟨hconsumed, hs⟩ := Bool.and_eq_true_iff.mp hs
  obtain ⟨hfirst, hsecond⟩ := Bool.and_eq_true_iff.mp hs
  exact ⟨s, _, _, of_decide_eq_true hcuda, rfl, rfl, of_decide_eq_true hconsumed,
    of_decide_eq_true hfirst, of_decide_eq_true hsecond,
    twoChunks.completions_exact [0] (by decide) hrun⟩

end InstantTensor
