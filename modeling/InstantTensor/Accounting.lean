/-
# `InstantTensor.Accounting` — every read of a posted chunk is somewhere

The invariant of the pipeline.  A read of a posted chunk is outstanding — still to submit, in
flight, or completed and not taken — or has been consumed, and never both (`balance`).
From this the bookkeeping of the backends follows: `unfinished_cnt` is the number of
outstanding reads of the chunk (`counted`), and the results a task has yet to reap are
those of its outstanding reads (`reaped`).  So a task of `cuda_thread` is through only when its
chunk has no outstanding read, and no chunk up to `chunk_read` has one.

Most turns only move reads from one place to the next (`Accounted.shuffle`); what is left is
one lemma for each of posting, taking a completion, and the end of a task.
-/
import InstantTensor.Moves
import InstantTensor.Pipeline

namespace InstantTensor

/-- The reads of chunk `c`. -/
def Load.reads (l : Load) (c : ℕ) : List Read :=
  match l.layout.chunks[c]? with
  | none => []
  | some chunk => issued l.geometry l.args (chunkIOParams l.geometry l.args c chunk)

/-- The reads of the chunks up to `n`. -/
def Load.readsUpTo (l : Load) (n : ℤ) : List Read := (List.range (n + 1).toNat).flatMap l.reads

namespace Pipeline

/-! ## Where reads and tasks are -/

section
variable (s : Pipeline)

/-- The reads of a posted chunk that no task has taken. -/
def outstanding : List Read :=
  s.posting.toList.flatMap Posting.reads ++ s.lastPage.flatMap Job.reads ++ s.inFlight
    ++ s.completed.map Prod.fst

/-- The tasks of `cuda_thread`, with that of the chunk being posted. -/
def tasks : List Task := s.cuda ++ s.posting.toList.map Posting.task

/-- The chunks whose handle is not done. -/
def waiting : List ℤ := s.wait ++ s.posting.toList.map fun posting => posting.task.chunkId

/-- All completions so far. -/
def results : List (Read × ℤ) := s.completed ++ s.consumed

end

structure Accounted [IoEvent] (l : Load) (s : Pipeline) : Prop where
  balance : ∀ r, s.outstanding.count r + (s.consumed.map Prod.fst).count r
    = (l.readsUpTo s.loader.chunkReading).count r
  counted : l.args.backend.counts = true → ∀ c ≤ s.loader.chunkReading,
    s.unfinishedCnt c = s.outstanding.countP fun r => r.chunkId = c
  reaped : l.args.backend.counts = false → ∀ t ∈ s.tasks, ∀ r,
    t.reaps.count r = if r.chunkId = t.chunkId then s.outstanding.count r else 0
  due : ∀ r ∈ s.outstanding, r.chunkId ∈ s.tasks.map Task.chunkId
  awaited : s.tasks.map Task.chunkId <:+ s.waiting
  sorted : s.waiting.Pairwise (· < ·)
  between : ∀ c ∈ s.waiting, s.loader.chunkRead < c ∧ c ≤ s.loader.chunkReading
  accepted : ∀ e ∈ s.consumed, l.args.backend.rejects e.1 e.2 = false

end Pipeline

/-! ## The reads of a load -/

namespace Load

variable {l : Load}

theorem chunkId_of_mem_reads {c : ℕ} {r : Read} (h : r ∈ l.reads c) : r.chunkId = c := by
  unfold reads at h
  split at h
  · cases h
  · rw [issued_eq] at h
    exact chunkId_of_mem_wanted _ _ _ h

theorem mem_readsUpTo {n : ℤ} {r : Read} :
    r ∈ l.readsUpTo n ↔ ∃ c : ℕ, (c : ℤ) ≤ n ∧ r ∈ l.reads c := by
  simp only [readsUpTo, List.mem_flatMap, List.mem_range]
  constructor
  · rintro ⟨c, hc, hr⟩
    exact ⟨c, by omega, hr⟩
  · rintro ⟨c, hc, hr⟩
    exact ⟨c, by omega, hr⟩

theorem readsUpTo_succ {n : ℤ} (hn : -1 ≤ n) :
    l.readsUpTo (n + 1) = l.readsUpTo n ++ l.reads (n + 1).toNat := by
  have hsucc : (n + 1 + 1).toNat = (n + 1).toNat + 1 := by omega
  rw [readsUpTo, hsucc, List.range_succ, List.flatMap_append, List.flatMap_singleton]
  rfl

end Load

namespace Pipeline

variable {l : Load} {s s' : Pipeline}

theorem count_drop_take (n : ℕ) (reads : List Read) (r : Read) :
    (reads.drop n).count r + (reads.take n).count r = reads.count r := by
  conv_rhs => rw [← List.take_append_drop n reads, List.count_append]
  omega

namespace Accounted

variable [IoEvent]

/-! ## Turns that move reads -/

/-- A turn that moves reads from one place to the next. -/
theorem shuffle (h : Accounted l s) (hout : s'.outstanding.Perm s.outstanding)
    (htasks : s'.tasks = s.tasks) (hwaiting : s'.waiting = s.waiting)
    (hunfinished : s'.unfinishedCnt = s.unfinishedCnt) (hconsumed : s'.consumed = s.consumed)
    (hloader : s'.loader = s.loader) : Accounted l s' where
  balance := by
    intro r
    rw [hout.count_eq, hconsumed, hloader]
    exact h.balance r
  counted := by
    intro hb c hc
    rw [hunfinished, hout.countP_eq]
    exact h.counted hb c (hloader ▸ hc)
  reaped := by
    intro hb t ht r
    rw [hout.count_eq]
    exact h.reaped hb t (htasks ▸ ht) r
  due := by
    intro r hr
    rw [htasks]
    exact h.due r (hout.mem_iff.mp hr)
  awaited := by
    rw [htasks, hwaiting]
    exact h.awaited
  sorted := hwaiting ▸ h.sorted
  between := by
    rw [hwaiting, hloader]
    exact h.between
  accepted := hconsumed ▸ h.accepted

/-- The loader goes on without posting. -/
theorem loaderMove (h : Accounted l s) {loader : Loader}
    (hreading : loader.chunkReading = s.loader.chunkReading)
    (hread : ∀ c ∈ s.waiting, loader.chunkRead < c) : Accounted l { s with loader } :=
  { h with
    balance := fun r => (h.balance r).trans (by rw [hreading])
    counted := fun hb c hc => h.counted hb c (hreading ▸ hc)
    between := fun c hc => ⟨hread c hc, (h.between c hc).2.trans_eq hreading.symm⟩ }

/-! ## Taking a completion -/

/-- A completion counted by a task. -/
theorem count (h : Accounted l s) (hb : l.args.backend.counts = true) {r : Read} {result : ℤ}
    {completed : List (Read × ℤ)} (hcompleted : s.completed = (r, result) :: completed)
    (haccept : l.args.backend.rejects r result = false) :
    Accounted l { s with
      completed
      unfinishedCnt := Function.update s.unfinishedCnt r.chunkId (sizeDec (s.unfinishedCnt r.chunkId))
      consumed := (r, result) :: s.consumed } := by
  set s₁ : Pipeline := { s with
    completed
    unfinishedCnt := Function.update s.unfinishedCnt r.chunkId (sizeDec (s.unfinishedCnt r.chunkId))
    consumed := (r, result) :: s.consumed } with hs₁
  have hout : s.outstanding.Perm (r :: s₁.outstanding) := by
    simp only [outstanding, hs₁, hcompleted, List.map_cons]
    exact List.perm_middle
  refine { h with
    balance := ?_
    counted := ?_
    reaped := fun hb' => absurd (hb.symm.trans hb') (by decide)
    due := fun r' hr' => h.due r' (hout.mem_iff.mpr (List.mem_cons_of_mem _ hr'))
    accepted := ?_ }
  · intro r'
    have := h.balance r'
    rw [hout.count_eq, List.count_cons] at this
    simp only [hs₁, List.map_cons, List.count_cons] at this ⊢
    omega
  · intro _ c hc
    have hcount := h.counted hb c hc
    rw [hout.countP_eq, List.countP_cons] at hcount
    by_cases heq : r.chunkId = c
    · subst heq
      simp only [hs₁, Function.update_self]
      simp only [decide_true, if_true] at hcount
      rw [hcount, sizeDec, if_neg (Nat.succ_ne_zero _), Nat.add_sub_cancel]
      rfl
    · simp only [hs₁, Function.update_of_ne (Ne.symm heq)]
      simpa [heq] using hcount
  · intro e he
    rcases List.mem_cons.mp he with rfl | he
    · exact haccept
    · exact h.accepted e he

theorem consume (hb : l.args.backend.counts = true) (n : ℕ) {s : Pipeline} (h : Accounted l s) :
    Accounted l (consume l.args n s) := by
  induction n generalizing s with
  | zero => exact h
  | succ n ih =>
      rw [Pipeline.consume]
      split
      · exact h
      · next r result completed hcompleted =>
        split
        · exact h.shuffle (List.Perm.refl _) rfl rfl rfl rfl rfl
        · next haccept =>
          exact ih (h.count hb hcompleted (by simpa using haccept))

theorem tasks_sorted (h : Accounted l s) : (s.tasks.map Task.chunkId).Pairwise (· < ·) :=
  h.sorted.sublist h.awaited.sublist

theorem mem_waiting (h : Accounted l s) {t : Task} (ht : t ∈ s.tasks) : t.chunkId ∈ s.waiting :=
  h.awaited.subset (List.mem_map_of_mem ht)

/-- A result reaped by a task. -/
theorem reap (h : Accounted l s) (hb : l.args.backend.counts = false) {task : Task}
    {rest : List Task} {r : Read} {reaps : List Read} {result : ℤ} (hcuda : s.cuda = task :: rest)
    (hreaps : task.reaps = r :: reaps) (hmem : (r, result) ∈ s.completed)
    (haccept : l.args.backend.rejects r result = false) :
    Accounted l { s with
      completed := s.completed.erase (r, result)
      cuda := { task with reaps } :: rest
      consumed := (r, result) :: s.consumed } := by
  set s₁ : Pipeline := { s with
    completed := s.completed.erase (r, result)
    cuda := { task with reaps } :: rest
    consumed := (r, result) :: s.consumed } with hs₁
  have hout : s.outstanding.Perm (r :: s₁.outstanding) := by
    simp only [outstanding, hs₁]
    exact (List.Perm.append_left _ ((List.perm_cons_erase hmem).map Prod.fst)).trans
      List.perm_middle
  have htasks : s.tasks = task :: (rest ++ s.posting.toList.map Posting.task) := by
    rw [tasks, hcuda, List.cons_append]
  have htasks₁ : s₁.tasks = { task with reaps } :: (rest ++ s.posting.toList.map Posting.task) :=
    rfl
  have hids : s₁.tasks.map Task.chunkId = s.tasks.map Task.chunkId := by
    rw [htasks, htasks₁]
    rfl
  have hid : r.chunkId = task.chunkId := by
    have := h.reaped hb task (htasks ▸ List.mem_cons_self) r
    rw [hreaps, List.count_cons_self] at this
    by_contra hne
    rw [if_neg hne] at this
    omega
  refine { h with
    balance := ?_
    counted := fun hb' => absurd (hb'.symm.trans hb) (by decide)
    reaped := ?_
    due := fun r' hr' => hids ▸ h.due r' (hout.mem_iff.mpr (List.mem_cons_of_mem _ hr'))
    awaited := hids ▸ h.awaited
    accepted := ?_ }
  · intro r'
    have := h.balance r'
    rw [hout.count_eq, List.count_cons] at this
    simp only [hs₁, List.map_cons, List.count_cons] at this ⊢
    omega
  · intro _ t ht r'
    rw [htasks₁] at ht
    rcases List.mem_cons.mp ht with rfl | ht
    · have := h.reaped hb task (htasks ▸ List.mem_cons_self) r'
      rw [hreaps, hout.count_eq, List.count_cons, List.count_cons] at this
      change reaps.count r' = if r'.chunkId = task.chunkId then s₁.outstanding.count r' else 0
      split at this <;> split <;> split at this <;> omega
    · -- the other tasks wait for other chunks
      have := h.reaped hb t (htasks ▸ List.mem_cons_of_mem _ ht) r'
      rw [this, hout.count_eq]
      have hsorted := h.tasks_sorted
      rw [htasks, List.map_cons] at hsorted
      have hlt := (List.pairwise_cons.mp hsorted).1 _ (List.mem_map_of_mem ht)
      split
      · next heq =>
        refine List.count_cons_of_ne fun hr => ?_
        rw [hr] at hid
        omega
      · rfl
  · intro e he
    rcases List.mem_cons.mp he with rfl | he
    · exact haccept
    · exact h.accepted e he

/-! ## The end of a task -/

/-- A task is through only when its chunk has nothing outstanding. -/
theorem finished_iff (h : Accounted l s) {task : Task} (htask : task ∈ s.tasks) :
    s.finished l.args task = true ↔ ∀ r ∈ s.outstanding, r.chunkId ≠ task.chunkId := by
  have hle := (h.between _ (h.mem_waiting htask)).2
  unfold finished
  split
  · next hb =>
    rw [decide_eq_true_eq, h.counted hb _ hle, List.countP_eq_zero]
    simp only [decide_eq_true_eq, ne_eq]
  · next hb =>
    have hreaped := h.reaped (by simpa using hb) task htask
    rw [List.isEmpty_iff]
    constructor
    · intro hnil r hr hid
      have hcount := hreaped r
      rw [hnil, if_pos hid, List.count_nil] at hcount
      exact List.count_eq_zero.mp hcount.symm hr
    · intro hnone
      refine List.eq_nil_iff_forall_not_mem.mpr fun r hr => ?_
      have hpos := List.count_pos_iff.mpr hr
      have hcount := hreaped r
      split at hcount
      · next hid =>
        rw [hcount] at hpos
        exact hnone r (List.count_pos_iff.mp hpos) hid
      · omega

theorem cudaDone (h : Accounted l s) {task : Task} {rest : List Task}
    (hcuda : s.cuda = task :: rest) (hfinished : s.finished l.args task = true) :
    Accounted l { s with cuda := rest } := by
  have htasks : s.tasks = task :: ({ s with cuda := rest } : Pipeline).tasks := by
    rw [tasks, hcuda, List.cons_append]
    rfl
  have hnone := (h.finished_iff (htasks ▸ List.mem_cons_self)).mp hfinished
  refine { h with
    reaped := fun hb t ht => h.reaped hb t (htasks ▸ List.mem_cons_of_mem _ ht)
    due := ?_
    awaited := ?_ }
  · intro r hr
    have hdue := h.due r hr
    rw [htasks, List.map_cons] at hdue
    exact (List.mem_cons.mp hdue).resolve_left (hnone r hr)
  · have hawaited := h.awaited
    rw [htasks, List.map_cons] at hawaited
    exact (List.suffix_cons _ _).trans hawaited

theorem waitDone (h : Accounted l s) {chunkId : ℤ} {rest : List ℤ} (hwait : s.wait = chunkId :: rest)
    (hcuda : ∀ task ∈ s.cuda, task.chunkId ≠ chunkId) : Accounted l { s with wait := rest } := by
  have hwaiting : s.waiting = chunkId :: ({ s with wait := rest } : Pipeline).waiting := by
    rw [waiting, hwait, List.cons_append]
    rfl
  have hsorted := h.sorted
  rw [hwaiting] at hsorted
  obtain ⟨hlt, hsorted⟩ := List.pairwise_cons.mp hsorted
  refine { h with
    awaited := ?_
    sorted := hsorted
    between := fun c hc => h.between c (hwaiting ▸ List.mem_cons_of_mem _ hc) }
  have hawaited := h.awaited
  rw [hwaiting] at hawaited
  refine (List.suffix_cons_iff.mp hawaited).resolve_left fun heq => ?_
  -- the chunk that is done is neither at `cuda_thread` nor being posted
  have hmem : chunkId ∈ s.tasks.map Task.chunkId := heq ▸ List.mem_cons_self
  obtain ⟨task, htask, hid⟩ := List.mem_map.mp hmem
  rcases List.mem_append.mp htask with htask | htask
  · exact hcuda task htask hid
  · obtain ⟨posting, hposting, rfl⟩ := List.mem_map.mp htask
    have := hlt posting.task.chunkId
      (List.mem_append_right _ (List.mem_map_of_mem (f := fun p => p.task.chunkId) hposting))
    omega

end Accounted

/-! ## Posting -/

/-- What posting the chunk of `p` with `reads` adds to the books. -/
structure Posted (backend : Backend) (p : ChunkIOParams) (reads : List Read) (s s' : Pipeline) :
    Prop where
  loader : s'.loader = s.loader
  consumed : s'.consumed = s.consumed
  outstanding : s'.outstanding.Perm (reads ++ s.outstanding)
  tasks : ∃ reaps, s'.tasks = s.tasks ++ [{ chunkId := p.chunkId, reaps }] ∧
    (backend.counts = false → reaps = reads)
  waiting : s'.waiting = s.waiting ++ [p.chunkId]
  unfinished : backend.counts = true →
    s'.unfinishedCnt = Function.update s.unfinishedCnt p.chunkId reads.length

theorem postReads_posted (pageSize : ℕ) (args : OpenArgs) (p : ChunkIOParams)
    (hposting : s.posting = none) :
    Posted args.backend p (issued (initBuffer pageSize args) args p) s
      (postReads pageSize args p s) := by
  have htasks : ∀ {posting : Posting}, s.cuda ++ [posting.task] = s.tasks ++ [posting.task] := by
    intro posting
    simp [tasks, hposting]
  have hwaiting : ∀ {c : ℤ}, s.wait ++ [c] = s.waiting ++ [c] := by
    intro c
    simp [waiting, hposting]
  have hlen : (issued (initBuffer pageSize args) args p).length
      = (wanted (initBuffer pageSize args) args p).length := by
    rw [issued_eq]
  -- the reads are in front of the loader, or with the reader of last pages
  have hdirect : ∀ (u : ℤ → ℕ) (posting : Posting),
      ({ s with unfinishedCnt := u, posting := some posting } : Pipeline).outstanding.Perm
        (posting.reads ++ s.outstanding) := by
    intro u posting
    refine List.Perm.of_eq ?_
    simp [outstanding, hposting]
  have hjob : ∀ (u : ℤ → ℕ) (job : Job) (task : Task),
      ({ s with
          unfinishedCnt := u
          lastPage := s.lastPage ++ [job]
          posting := some { reads := [], task } } : Pipeline).outstanding.Perm
        (job.reads ++ s.outstanding) := by
    intro u job task
    refine List.perm_iff_count.mpr fun r => ?_
    simp only [outstanding, hposting, Option.toList_some, Option.toList_none, List.flatMap_append,
      List.flatMap_cons, List.flatMap_nil, List.nil_append, List.append_nil, List.count_append]
    omega
  cases hb : args.backend with
  | AIO | AIO_BUFFERED =>
      simp only [postReads, hb]
      split
      · exact ⟨rfl, rfl, hjob _ _ _, ⟨[], htasks, fun h => absurd h (by decide)⟩, hwaiting,
          fun _ => by rw [hlen]⟩
      · exact ⟨rfl, rfl, hdirect _ _, ⟨[], htasks, fun h => absurd h (by decide)⟩, hwaiting,
          fun _ => by rw [hlen]⟩
  | URING | URING_BUFFERED =>
      simp only [postReads, hb]
      exact ⟨rfl, rfl, hdirect _ _, ⟨[], htasks, fun h => absurd h (by decide)⟩, hwaiting,
        fun _ => by rw [hlen]⟩
  | CUFILE | MMAP =>
      simp only [postReads, hb]
      refine ⟨rfl, rfl, hdirect s.unfinishedCnt _, ⟨_, htasks, fun _ => ?_⟩, hwaiting,
        fun h => absurd h (by decide)⟩
      rw [issued_eq]
      exact firstWanted_eq _ _ _

/-- Reads of the chunk `c` and of none else, counted by chunk. -/
theorem countP_chunk {reads : List Read} {c : ℤ} (h : ∀ r ∈ reads, r.chunkId = c) (c' : ℤ) :
    (reads.countP fun r => r.chunkId = c') = if c' = c then reads.length else 0 := by
  split
  · next heq => exact List.countP_eq_length.mpr fun r hr => decide_eq_true ((h r hr).trans heq.symm)
  · next hne =>
    refine List.countP_eq_zero.mpr fun r hr hid => hne ?_
    exact (of_decide_eq_true hid).symm.trans (h r hr)

/-- A read of another chunk is not among them. -/
theorem count_chunk {reads : List Read} {c : ℤ} (h : ∀ r ∈ reads, r.chunkId = c) {r : Read}
    (hr : r.chunkId ≠ c) : reads.count r = 0 :=
  List.count_eq_zero.mpr fun hmem => hr (h r hmem)

/-- The loader posts the next chunk. -/
theorem Accounted.post [IoEvent] (h : Accounted l s) {loader : Loader} {p : ChunkIOParams} {reads : List Read}
    (hread : ∀ c ∈ s.waiting, loader.chunkRead < c) (hle : loader.chunkRead < loader.chunkReading)
    (hreading : loader.chunkReading = s.loader.chunkReading + 1) (hge : -1 ≤ s.loader.chunkReading)
    (hp : p.chunkId = loader.chunkReading) (hreads : l.reads loader.chunkReading.toNat = reads)
    (hposted : Posted l.args.backend p reads { s with loader } s') : Accounted l s' := by
  have hnew : ∀ r ∈ reads, r.chunkId = loader.chunkReading := by
    intro r hr
    rw [Load.chunkId_of_mem_reads (hreads ▸ hr)]
    omega
  have hold : ∀ r ∈ s.outstanding, r.chunkId < loader.chunkReading := by
    intro r hr
    have := (h.between _ (h.awaited.subset (h.due r hr))).2
    omega
  have hout : s'.outstanding.Perm (reads ++ s.outstanding) := hposted.outstanding
  obtain ⟨reaps, htasks, hreaps⟩ := hposted.tasks
  have htasks : s'.tasks = s.tasks ++ [{ chunkId := p.chunkId, reaps }] := htasks
  have hwaiting : s'.waiting = s.waiting ++ [p.chunkId] := hposted.waiting
  have hloader : s'.loader = loader := hposted.loader
  have hconsumed : s'.consumed = s.consumed := hposted.consumed
  constructor
  case balance =>
    intro r
    have := h.balance r
    rw [hout.count_eq, hconsumed, hloader, hreading, Load.readsUpTo_succ hge, ← hreading, hreads,
      List.count_append, List.count_append]
    omega
  case counted =>
    intro hb c hc
    rw [hloader] at hc
    rw [hposted.unfinished hb, hp, hout.countP_eq, List.countP_append, countP_chunk hnew]
    by_cases heq : c = loader.chunkReading
    · have hnone : s.outstanding.countP (fun r => decide (r.chunkId = c)) = 0 :=
        List.countP_eq_zero.mpr fun r hr hid => by
          have := hold r hr
          have := of_decide_eq_true hid
          omega
      rw [if_pos heq, hnone, heq, Function.update_self, Nat.add_zero]
    · rw [if_neg heq, Function.update_of_ne heq, Nat.zero_add]
      exact h.counted hb c (by omega)
  case reaped =>
    intro hb t ht r
    rw [hout.count_eq, List.count_append]
    rw [htasks] at ht
    rcases List.mem_append.mp ht with ht | ht
    · have hlt := (h.between _ (h.mem_waiting ht)).2
      rw [h.reaped hb t ht r]
      split
      · next hid =>
        rw [count_chunk hnew (by omega), Nat.zero_add]
      · rfl
    · rw [List.mem_singleton.mp ht, hreaps hb]
      simp only [hp]
      split
      · next hid =>
        have hzero : s.outstanding.count r = 0 := List.count_eq_zero.mpr fun hr => by
          have := hold r hr
          omega
        omega
      · next hid => exact count_chunk hnew hid
  case due =>
    intro r hr
    rw [htasks, List.map_append, List.mem_append]
    rcases List.mem_append.mp (hout.mem_iff.mp hr) with hr | hr
    · exact .inr (List.mem_singleton.mpr ((hnew r hr).trans hp.symm))
    · exact .inl (h.due r hr)
  case awaited =>
    obtain ⟨done, hdone⟩ := h.awaited
    rw [htasks, hwaiting, ← hdone, List.map_append]
    exact ⟨done, by simp⟩
  case sorted =>
    rw [hwaiting]
    refine List.pairwise_append.mpr ⟨h.sorted, List.pairwise_singleton _ _, fun c hc c' hc' => ?_⟩
    have := (h.between c hc).2
    rw [List.mem_singleton.mp hc']
    omega
  case between =>
    intro c hc
    rw [hloader]
    rw [hwaiting] at hc
    rcases List.mem_append.mp hc with hc | hc
    · have := (h.between c hc).2
      exact ⟨hread c hc, by omega⟩
    · rw [List.mem_singleton.mp hc, hp]
      exact ⟨hle, Int.le_refl _⟩
  case accepted => exact hconsumed ▸ h.accepted

end Pipeline

end InstantTensor
