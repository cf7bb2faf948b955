/-
# `InstantTensor.ShortReads` — what has been read when a tensor is handed out

When `get_tensor_ptr` has returned a tensor, every read of every chunk up to the tensor's last one
has completed, and with a result its backend takes (`Load.pointer_after_reads`): for CUFILE the
bytes of the slice, for URING any result that is not an error, for AIO any result.  A read that
completes with another result ends the process, whatever the threads behind the loader go on
to do: they cannot get stuck before a task has come to that result (`Accounted.inner_move`),
and every action leaves them less to do (`Acts.work`).
-/
import InstantTensor.Turns

namespace InstantTensor

/-- What the backend makes sure of before a slice counts as read.  For AIO this is nothing. -/
def Backend.Supplied (backend : Backend) (r : Read) (result : ℤ) : Prop :=
  match backend with
  | AIO | AIO_BUFFERED => True
  | URING | URING_BUFFERED => 0 ≤ result
  | CUFILE => result = r.size
  | MMAP => True

theorem Backend.supplied_iff [IoEvent] (backend : Backend) (r : Read) (result : ℤ) :
    backend.Supplied r result ↔ backend.rejects r result = false := by
  cases backend <;> simp [Supplied, rejects, IoEvent.res_nonneg]

namespace Pipeline

variable [IoEvent] {l : Load} {gets : List ℕ} {s s' : Pipeline}

/-! ## Reaped chunks have been read -/

/-- No chunk up to `chunk_read` has an outstanding read. -/
theorem Accounted.read_lt (h : Accounted l s) {r : Read} (hr : r ∈ s.outstanding) :
    s.loader.chunkRead < r.chunkId :=
  (h.between _ (h.awaited.subset (h.due r hr))).1

/-- The reads of a reaped chunk have been consumed. -/
theorem Accounted.consumed_of_read (h : Accounted l s) {c : ℕ} (hread : (c : ℤ) ≤ s.loader.chunkRead)
    (hle : s.loader.chunkRead ≤ s.loader.chunkReading) {r : Read} (hr : r ∈ l.reads c) :
    ∃ result, (r, result) ∈ s.consumed := by
  have hposted : r ∈ l.readsUpTo s.loader.chunkReading :=
    Load.mem_readsUpTo.mpr ⟨c, Int.le_trans hread hle, hr⟩
  have hnone : s.outstanding.count r = 0 := List.count_eq_zero.mpr fun hout => by
    have hlt := h.read_lt hout
    rw [Load.chunkId_of_mem_reads hr] at hlt
    omega
  have hbalance := h.balance r
  have hpos := List.count_pos_iff.mpr hposted
  have hmem : r ∈ s.consumed.map Prod.fst := List.count_pos_iff.mp (by omega)
  obtain ⟨⟨r', result⟩, he, rfl⟩ := List.mem_map.mp hmem
  exact ⟨result, he⟩

/-- A result for a read of a reaped chunk is one the backend takes. -/
theorem Accounted.supplied (h : Accounted l s) {c : ℕ} (hread : (c : ℤ) ≤ s.loader.chunkRead)
    {r : Read} (hr : r ∈ l.reads c) {result : ℤ} (he : (r, result) ∈ s.results) :
    l.args.backend.Supplied r result := by
  rw [Backend.supplied_iff]
  rcases List.mem_append.mp he with he | he
  · have hout : r ∈ s.outstanding := List.mem_append_right _ (List.mem_map_of_mem (f := Prod.fst) he)
    have hlt := h.read_lt hout
    rw [Load.chunkId_of_mem_reads hr] at hlt
    omega
  · exact h.accepted _ he

/-! ## A rejected result ends the process -/

/-- A turn of a thread other than the loader, or of the loader inside `post_read_chunk`. -/
def Turn.Inner (t : Turn) : Prop := ∀ arrived, t ≠ .loader arrived

/-- What the threads behind the loader have left to do. -/
def work (s : Pipeline) : ℕ :=
  3 * (s.posting.toList.flatMap Posting.reads).length + 3 * (s.lastPage.flatMap Job.reads).length
    + 2 * s.inFlight.length + s.completed.length + s.lastPage.length + 3 * s.posting.toList.length
    + s.cuda.length + s.wait.length

theorem consume_results (args : OpenArgs) {e : Read × ℤ} (n : ℕ) {s : Pipeline}
    (he : e ∈ s.results) : e ∈ (consume args n s).results := by
  induction n generalizing s with
  | zero => exact he
  | succ n ih =>
      rw [consume]
      split
      · exact he
      next r result completed hcompleted =>
      split
      · exact he
      · refine ih ?_
        simp only [results, hcompleted, List.mem_append, List.mem_cons] at he ⊢
        tauto

theorem consume_work (args : OpenArgs) (n : ℕ) {s : Pipeline} (hn : n ≤ s.completed.length) :
    (consume args n s).aborted.isSome = true ∨ (consume args n s).work + n = s.work := by
  induction n generalizing s with
  | zero => exact .inr rfl
  | succ n ih =>
      rw [consume]
      split
      · next hnil => simp [hnil] at hn
      next r result completed hcompleted =>
      split
      · exact .inl rfl
      · have hn' : n ≤ completed.length := by
          rw [hcompleted, List.length_cons] at hn
          omega
        rcases ih (s := { s with
            completed
            unfinishedCnt :=
              Function.update s.unfinishedCnt r.chunkId (sizeDec (s.unfinishedCnt r.chunkId))
            consumed := (r, result) :: s.consumed }) hn' with h | h
        · exact .inl h
        · right
          simp only [work, hcompleted, List.length_cons] at h ⊢
          omega

/-- No result is lost. -/
theorem Acts.results {args : OpenArgs} (hacts : Acts args s s') {e : Read × ℤ}
    (he : e ∈ s.results) : e ∈ s'.results := by
  cases hacts with
  | complete =>
      simp only [Pipeline.results, List.mem_append] at he ⊢
      tauto
  | count => exact consume_results args _ he
  | @reap task rest r reaps result _ _ _ hmem =>
      simp only [Pipeline.results, List.mem_append] at he ⊢
      by_cases heq : e = (r, result)
      · exact .inr (heq ▸ List.mem_cons_self)
      · exact he.imp (List.mem_erase_of_ne heq).mpr (List.mem_cons_of_mem _)
  | _ => exact he

/-- Every action of the threads behind the loader leaves them less to do. -/
theorem Acts.work {args : OpenArgs} (hacts : Acts args s s') :
    s'.aborted.isSome = true ∨ s'.work < s.work := by
  cases hacts with
  | @submit posting n hposting hpos hle =>
      right
      simp only [Pipeline.work, hposting, Option.toList_some, List.flatMap_cons, List.flatMap_nil,
        List.append_nil, List.length_append, List.length_drop, List.length_take, List.length_cons,
        List.length_nil]
      omega
  | hand hposting =>
      right
      simp only [Pipeline.work, hposting, Option.toList_some, Option.toList_none, List.flatMap_cons,
        List.flatMap_nil, List.append_nil, List.length_append, List.length_cons, List.length_nil]
      omega
  | @lastPage job jobs n hjobs hpos hle =>
      right
      simp only [Pipeline.work, hjobs, List.flatMap_cons, List.length_append, List.length_drop,
        List.length_take, List.length_cons]
      omega
  | lastPageDone hjobs =>
      right
      simp only [Pipeline.work, hjobs, List.flatMap_cons, List.length_append, List.length_cons]
      omega
  | @complete r result hr =>
      right
      have := List.length_erase_of_mem hr
      have := List.length_pos_of_mem hr
      simp only [Pipeline.work, List.length_append, List.length_cons, List.length_nil]
      omega
  | count _ _ _ hpos _ hle =>
      refine (consume_work args _ hle).imp_right fun h => ?_
      omega
  | reap _ hcuda _ hmem =>
      right
      have := List.length_erase_of_mem hmem
      have := List.length_pos_of_mem hmem
      simp only [Pipeline.work, hcuda, List.length_cons]
      omega
  | cudaDone hcuda =>
      right
      simp only [Pipeline.work, hcuda, List.length_cons]
      omega
  | waitDone hwait =>
      right
      simp only [Pipeline.work, hwait, List.length_cons]
      omega
  | abort => exact .inl rfl

/-- The task of `cuda_thread` can go on when all submitted reads have completed. -/
theorem Accounted.task_turn (h : Accounted l s) {task : Task} {rest : List Task}
    (hcuda : s.cuda = task :: rest) (hjobs : s.lastPage = [])
    (hout : s.outstanding = s.completed.map Prod.fst) :
    ∃ t, (t = .cudaDone ∨ ∃ n, t = .take n) ∧ (s.turn l.pageSize l.args t).isSome = true := by
  have hsubmitted : s.submitted task = true := by simp [submitted, hjobs]
  have htask : task ∈ s.tasks := by simp [tasks, hcuda]
  by_cases hfinished : s.finished l.args task = true
  · refine ⟨.cudaDone, .inl rfl, ?_⟩
    simp [turn, hcuda, hsubmitted, hfinished]
  unfold finished at hfinished
  by_cases hb : l.args.backend.counts = true
  · rw [if_pos hb, decide_eq_true_eq] at hfinished
    have hbatch : 0 < l.args.backend.batch (s.unfinishedCnt task.chunkId) ∧
        l.args.backend.batch (s.unfinishedCnt task.chunkId) ≤ s.unfinishedCnt task.chunkId := by
      unfold Backend.batch
      split <;> omega
    -- the completions the chunk lacks are there, in whatever place of the queue
    have hle : s.unfinishedCnt task.chunkId ≤ s.completed.length := by
      rw [h.counted hb _ (h.between _ (h.mem_waiting htask)).2, hout]
      exact List.countP_le_length.trans_eq (List.length_map _)
    refine ⟨.take (l.args.backend.batch (s.unfinishedCnt task.chunkId)), .inr ⟨_, rfl⟩, ?_⟩
    simp only [turn, hcuda, hsubmitted, if_true, takeTurn, if_pos hb]
    rw [if_pos ⟨hbatch.1, Nat.le_refl _, Nat.le_trans hbatch.2 hle⟩]
    rfl
  · rw [if_neg hb, List.isEmpty_iff] at hfinished
    obtain ⟨r, reaps, hreaps⟩ := List.exists_cons_of_ne_nil hfinished
    have hcount := h.reaped (by simpa using hb) task htask r
    rw [hreaps, List.count_cons_self, hout] at hcount
    have hmem : r ∈ s.completed.map Prod.fst := List.count_pos_iff.mp (by split at hcount <;> omega)
    obtain ⟨e, hfind⟩ : ∃ e, s.completed.find? (fun e => e.1 = r) = some e := by
      obtain ⟨e, he, heq⟩ := List.mem_map.mp hmem
      exact Option.isSome_iff_exists.mp (List.find?_isSome.mpr ⟨e, he, by simpa using heq⟩)
    refine ⟨.take 1, .inr ⟨_, rfl⟩, ?_⟩
    simp only [turn, hcuda, hsubmitted, if_true, takeTurn, if_neg hb, hreaps, hfind]
    split <;> rfl

theorem Accounted.task_move (h : Accounted l s) {task : Task} {rest : List Task}
    (hcuda : s.cuda = task :: rest) (hjobs : s.lastPage = [])
    (hout : s.outstanding = s.completed.map Prod.fst) :
    ∃ t, Turn.Inner t ∧ (s.turn l.pageSize l.args t).isSome = true := by
  obtain ⟨t, ht, hturn⟩ := h.task_turn hcuda hjobs hout
  refine ⟨t, fun arrived heq => ?_, hturn⟩
  rcases ht with rfl | ⟨n, rfl⟩
  · cases heq
  · cases heq

/-- As long as a completion has not been taken some thread can go on. -/
theorem Accounted.inner_move (h : Accounted l s) {e : Read × ℤ} (he : e ∈ s.completed) :
    ∃ t, Turn.Inner t ∧ (s.turn l.pageSize l.args t).isSome = true := by
  cases hposting : s.posting with
  | some posting =>
      obtain ⟨reads, task⟩ := posting
      cases reads with
      | nil => exact ⟨.hand, fun _ => Turn.noConfusion, by simp [turn, hposting]⟩
      | cons r reads => exact ⟨.submit 1, fun _ => Turn.noConfusion, by simp [turn, hposting]⟩
  | none =>
  cases hjobs : s.lastPage with
  | cons job jobs =>
      obtain ⟨chunkId, reads⟩ := job
      cases reads with
      | nil => exact ⟨.lastPageDone, fun _ => Turn.noConfusion, by simp [turn, hjobs]⟩
      | cons r reads => exact ⟨.lastPage 1, fun _ => Turn.noConfusion, by simp [turn, hjobs]⟩
  | nil =>
  cases hflight : s.inFlight with
  | cons r reads => exact ⟨.complete r 0, fun _ => Turn.noConfusion, by simp [turn, hflight]⟩
  | nil =>
  have hout : s.outstanding = s.completed.map Prod.fst := by
    simp [outstanding, hposting, hjobs, hflight]
  have hdue := h.due e.1 (hout ▸ List.mem_map_of_mem he)
  obtain ⟨task, htask, -⟩ := List.mem_map.mp hdue
  rw [tasks, hposting, Option.toList_none, List.map_nil, List.append_nil] at htask
  obtain ⟨head, rest, hcuda⟩ := List.exists_cons_of_ne_nil (List.ne_nil_of_mem htask)
  exact h.task_move hcuda hjobs hout

/-- A result no task takes has been delivered. -/
structure Doomed (l : Load) (gets : List ℕ) (e : Read × ℤ) (s : Pipeline) : Prop where
  kept : Kept l gets s
  mem : e ∈ s.results
  rejected : ¬ l.args.backend.Supplied e.1 e.2

theorem Doomed.waits {e : Read × ℤ} (h : Doomed l gets e s) : e ∈ s.completed := by
  refine (List.mem_append.mp h.mem).resolve_right fun he => h.rejected ?_
  exact (Backend.supplied_iff _ _ _).mpr (h.kept.accounted.accepted e he)

theorem Doomed.aborts {e : Read × ℤ} (h : Doomed l gets e s) :
    Inevitable (Pipeline.next l.pageSize l.args) Turn.Inner (fun s => s.aborted.isSome = true) s := by
  refine Inevitable.of_measure (I := Doomed l gets e) Pipeline.work ?_ ?_ h
  · intro s hs hrunning
    obtain ⟨t, hinner, hturn⟩ := hs.kept.accounted.inner_move hs.waits
    obtain ⟨s', hturn⟩ := Option.isSome_iff_exists.mp hturn
    exact ⟨t, s', hinner, by rw [next, if_neg hrunning, hturn]⟩
  · intro s hs hrunning t s' hinner hnext
    rw [next, if_neg hrunning] at hnext
    rcases turn_cases hnext with ⟨arrived, rfl, -⟩ | hacts
    · exact absurd rfl (hinner arrived)
    · exact hacts.work.imp_right fun hlt =>
        ⟨⟨hs.kept.acts hacts, hacts.results hs.mem, hs.rejected⟩, hlt⟩

end Pipeline

namespace Load

variable [IoEvent] {l : Load} {gets : List ℕ} {s : Pipeline}

/-- `get_tensor_ptr` has returned the tensor. -/
def Gave (l : Load) (s : Pipeline) (tensor : TensorMetadate) : Prop :=
  ∃ index, .gave index ∈ s.loader.log ∧ l.layout.tensors[index]? = some tensor

theorem gave_read (h : Run (Pipeline.next l.pageSize l.args) (l.pipeline gets) s)
    {tensor : TensorMetadate} (hgave : l.Gave s tensor) :
    tensor.lastChunkId ≤ s.loader.chunkRead ∧ s.loader.chunkRead ≤ s.loader.chunkReading := by
  obtain ⟨index, hlog, htensor⟩ := hgave
  have hkept := l.run_kept h
  rcases l.run_start hkept.loader with hstart | hrun
  · rw [hstart] at hlog
    exact absurd hlog List.not_mem_nil
  · exact ⟨l.run_gave hrun index hlog tensor htensor,
      (l.run_opened (l.opened_opened gets) hrun).read_le⟩

/-- **A tensor is handed out only with all its reads completed, each with a result its backend
takes; any other result ends the process.** -/
theorem pointer_after_reads (l : Load) (gets : List ℕ)
    (h : Run (Pipeline.next l.pageSize l.args) (l.pipeline gets) s) :
    (∀ tensor, l.Gave s tensor → ∀ c : ℕ, (c : ℤ) ≤ tensor.lastChunkId → ∀ r ∈ l.reads c,
      (∃ result, (r, result) ∈ s.results) ∧
        ∀ result, (r, result) ∈ s.results → l.args.backend.Supplied r result) ∧
    ∀ e ∈ s.results, ¬ l.args.backend.Supplied e.1 e.2 →
      Inevitable (Pipeline.next l.pageSize l.args) Pipeline.Turn.Inner
        (fun s => s.aborted.isSome = true) s := by
  have hkept := l.run_kept h
  constructor
  · intro tensor hgave c hc r hr
    obtain ⟨hlast, hle⟩ := l.gave_read h hgave
    have hread := Int.le_trans hc hlast
    constructor
    · obtain ⟨result, he⟩ := hkept.accounted.consumed_of_read hread hle hr
      exact ⟨result, List.mem_append_right _ he⟩
    · intro result he
      exact hkept.accounted.supplied hread hr he
  · intro e he hrejected
    exact (Pipeline.Doomed.mk hkept he hrejected).aborts

end Load

end InstantTensor
