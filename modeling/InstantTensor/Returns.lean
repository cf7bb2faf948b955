/-
# `InstantTensor.Returns` — when all ranks return

NCCL executes an all-gather when all ranks have called it, so a rank can wait for another one that
does not get there.  It cannot as long as every rank that has closed had posted all it was allowed to:
of the ranks with an all-gather to receive, the one that is furthest behind waits for nobody.
Either it has not been called by some rank, and that rank, being idle, posts the next chunk;
or all have called it, and the streams bring it to its end (`Ranks.can_move`).

So every way to go on leads to a state in which all ranks have returned, or one has closed
short of its limit (`Load.group_settles`).  The second cannot be when serving the requests takes the
prefetcher to its limit anyway (`Load.group_returns`), and it does not matter to a rank by itself, which
has all its answers by then (`Load.alone_serves`).
-/
import Mathlib.Algebra.Order.BigOperators.Group.Finset
import InstantTensor.Progress
import InstantTensor.Streams

namespace InstantTensor

/-- A turn in which nothing fails.  What a read in flight does to its destination is not a turn
towards anything. -/
def RankTurn.Proper {α : Type} (backend : Backend) : RankTurn α → Prop
  | .thread t _ => t.Proper backend
  | .transfer _ _ => False
  | _ => True

def Ranks.Proper {α : Type} (backends : ℕ → Backend) (t : ℕ × RankTurn α) : Prop :=
  t.2.Proper (backends t.1)

namespace Rank

variable {α : Type} {l : Load} {n : ℕ} {file : ℕ → ℕ → α} {sent : ℕ → List (ℕ → α)} {s s' : Rank α}

structure Going (l : Load) (n : ℕ) (s : Rank α) : Prop where
  running : Pipeline.Running l n s.pipeline
  streamed : s.Streamed l

/-! ## Every turn leaves less to do -/

/-- The copies and the two halves of the all-gathers that are queued. -/
def queued (s : Rank α) : ℕ :=
  s.copies.length + s.gathers.length + (s.gathers.length + s.gathered.length - s.sent.length)

def toDo (l : Load) (s : Rank α) : ℕ := s.pipeline.toDo l + s.queued

/-- The end of a task queues one copy and one all-gather at most. -/
theorem effect_queued (l : Load) (file : ℕ → ℕ → α) (junk : ℕ → α) (t : Turn) (pipeline : Pipeline)
    (s : Rank α) : (s.effect l file junk t pipeline).queued ≤ s.queued + 3 := by
  cases t with
  | loader arrived =>
      simp only [effect]
      split <;> exact Nat.le_add_right _ _
  | cudaDone =>
      simp only [effect, launch]
      split
      · exact Nat.le_add_right _ _
      next task _ _ =>
      split
      · exact Nat.le_add_right _ _
      · next chunk _ =>
        have hone : ∀ (b : Prop) [Decidable b] (ps : List ChunkIOParams) (p : ChunkIOParams),
            (if b then ps else ps ++ [p]).length ≤ ps.length + 1 ∧
              (if b then ps ++ [p] else ps).length ≤ ps.length + 1 := by
          intro b _ ps p
          constructor <;> split <;> simp
        have hcopies := (hone (l.args.backend = Backend.CUFILE) s.copies
          (chunkIOParams l.geometry l.args task.chunkId chunk)).1
        have hgathers := (hone (1 < l.args.worldSize) s.gathers
          (chunkIOParams l.geometry l.args task.chunkId chunk)).2
        simp only [queued]
        omega
  | _ => exact Nat.le_add_right _ _

theorem Going.thread_turn (h : Going l n s) (hreq : l.layout.Requestable)
    (hn : n ≤ l.layout.tensors.length) {t : Turn} {junk : ℕ → α} (ht : t.Proper l.args.backend)
    (hnext : s.next l file sent (.thread t junk) = some s') :
    s.pipeline.loader.ClosedShort ∨ Pipeline.Running l n s'.pipeline ∧ s'.toDo l < s.toDo l := by
  unfold next at hnext
  simp only at hnext
  split at hnext
  · obtain ⟨pipeline, hturn, rfl⟩ := Option.map_eq_some_iff.mp hnext
    rw [Pipeline.next, if_neg (by rw [h.running.aborted]; exact Bool.noConfusion)] at hturn
    by_cases hloader : ∃ arrived, t = .loader arrived
    · obtain ⟨arrived, rfl⟩ := hloader
      have hqueued : (s.effect l file junk (.loader arrived) pipeline).queued = s.queued := by
        simp only [effect]
        split <;> rfl
      rcases h.running.loader_turn hreq hn hturn with hshort | hmoved
      · exact .inl hshort
      · obtain ⟨hrunning, hlt⟩ := hmoved
        exact .inr ⟨hrunning, Nat.add_lt_add_of_lt_of_le hlt (Nat.le_of_eq hqueued)⟩
    · obtain ⟨hrunning, hle⟩ := h.running.inner_turn ht (fun arrived heq => hloader ⟨arrived, heq⟩) hturn
      have hqueued := effect_queued l file junk t pipeline s
      refine .inr ⟨hrunning, ?_⟩
      change pipeline.toDo l + (s.effect l file junk t pipeline).queued < _
      unfold toDo
      omega
  · cases hnext

theorem Going.stream_turn (h : Going l n s) {t : RankTurn α} (ht : ∀ t' junk, t ≠ .thread t' junk)
    (htransfer : ∀ r junk, t ≠ .transfer r junk) (hnext : s.next l file sent t = some s') :
    s'.pipeline = s.pipeline ∧ s'.toDo l < s.toDo l := by
  have hle := h.streamed.sent_le
  unfold next at hnext
  cases t with
  | thread t' junk => exact absurd rfl (ht t' junk)
  | transfer r junk => exact absurd rfl (htransfer r junk)
  | copy =>
      simp only at hnext
      split at hnext
      · cases hnext
      · next hcopies =>
        cases hnext
        refine ⟨rfl, ?_⟩
        simp only [toDo, queued, hcopies, List.length_cons]
        omega
  | send =>
      simp only at hnext
      split at hnext
      · cases hnext
      · next hgathers =>
        split at hnext
        · next hready =>
          cases hnext
          refine ⟨rfl, ?_⟩
          simp only [toDo, queued, hgathers, List.length_append, List.length_cons, List.length_nil]
          omega
        · cases hnext
  | receive =>
      simp only at hnext
      split at hnext
      · cases hnext
      · next hgathers =>
        split at hnext
        · cases hnext
          refine ⟨rfl, ?_⟩
          simp only [toDo, queued, hgathers, List.length_append, List.length_cons, List.length_nil]
          omega
        · cases hnext

theorem Going.turn (h : Going l n s) (hreq : l.layout.Requestable)
    (hn : n ≤ l.layout.tensors.length) {t : RankTurn α} (ht : t.Proper l.args.backend)
    (hnext : s.next l file sent t = some s') :
    s.pipeline.loader.ClosedShort ∨ Pipeline.Running l n s'.pipeline ∧ s'.toDo l < s.toDo l := by
  cases t with
  | thread t junk => exact h.thread_turn hreq hn ht hnext
  | transfer r junk => cases ht
  | _ =>
      obtain ⟨hpipeline, hlt⟩ := h.stream_turn (fun _ _ heq => by cases heq)
        (fun _ _ heq => by cases heq) hnext
      exact .inr ⟨hpipeline ▸ h.running, hlt⟩

/-! ## When a rank does not move by itself -/

/-- Some turn is possible in which nothing fails. -/
def Moves (l : Load) (file : ℕ → ℕ → α) (sent : ℕ → List (ℕ → α)) (s : Rank α) : Prop :=
  ∃ (t : RankTurn α) (s' : Rank α), t.Proper l.args.backend ∧ s.next l file sent t = some s'

/-- The threads behind the loader and `cuda_stream` have nothing to do. -/
structure Quiet (s : Rank α) : Prop where
  posting : s.pipeline.posting = none
  lastPage : s.pipeline.lastPage = []
  cuda : s.pipeline.cuda = []
  copies : s.copies = []

theorem moves_of_turn {t : Turn} {pipeline : Pipeline} (ht : t.Proper l.args.backend)
    (hsync : s.synchronized t = true)
    (hturn : Pipeline.next l.pageSize l.args t s.pipeline = some pipeline) : s.Moves l file sent := by
  refine ⟨.thread t s.memory.host,
    { s.effect l file s.memory.host t pipeline with pipeline }, ht, ?_⟩
  simp only [next, hsync, if_true, hturn, Option.map_some]

theorem Going.quiet_or_moves (h : Going l n s) : s.Quiet ∨ s.Moves l file sent := by
  by_cases hbusy : s.pipeline.posting ≠ none ∨ s.pipeline.lastPage ≠ [] ∨ s.pipeline.inFlight ≠ [] ∨
      s.pipeline.cuda ≠ []
  · obtain ⟨t, pipeline, ht, hne, hturn⟩ := h.running.busy hbusy
    refine .inr (moves_of_turn ht ?_ hturn)
    cases t with
    | waitDone => exact absurd rfl hne
    | _ => rfl
  · simp only [not_or, not_not] at hbusy
    obtain ⟨hposting, hjobs, -, hcuda⟩ := hbusy
    cases hcopies : s.copies with
    | nil => exact .inl ⟨hposting, hjobs, hcuda, hcopies⟩
    | cons p copies => exact .inr ⟨.copy, _, trivial, by simp only [next, hcopies]; rfl⟩

namespace Quiet

variable (hq : s.Quiet)
include hq

theorem launched_eq : s.launched = s.pipeline.loader.chunkReading := by
  have htasks : s.pipeline.tasks = [] := by simp [Pipeline.tasks, hq.posting, hq.cuda]
  rw [launched, htasks]
  simp

/-- Without an all-gather to wait for, a quiet rank goes on until it has returned. -/
theorem moves_alone (h : Going l n s) (hgathers : s.gathers = [])
    (hend : s.pipeline.loader.control ≠ .returned) : s.Moves l file sent := by
  cases hwait : s.pipeline.wait with
  | nil =>
      obtain ⟨pipeline, hturn⟩ := h.running.idle hq.posting hq.lastPage hq.cuda hwait hend
      exact moves_of_turn (t := .loader true) trivial rfl hturn
  | cons chunkId rest =>
      have hsync : s.synchronized .waitDone = true := by
        simp [synchronized, hwait, hq.copies, hgathers]
      have hturn : Pipeline.next l.pageSize l.args .waitDone s.pipeline
          = some { s.pipeline with wait := rest } := by
        rw [Pipeline.next, if_neg (by rw [h.running.aborted]; exact Bool.noConfusion)]
        simp [Pipeline.turn, hwait, hq.cuda]
      exact moves_of_turn (t := .waitDone) trivial hsync hturn

/-- A quiet rank that has called an all-gather sends its piece. -/
theorem moves_or_sent (h : Going l n s) (hgathers : s.gathers ≠ []) :
    s.Moves l file sent ∨ s.gathered.length < s.sent.length := by
  obtain ⟨p, gathers, hcons⟩ := List.exists_cons_of_ne_nil hgathers
  rcases Nat.lt_or_eq_of_le h.streamed.sent_ge with hlt | heq
  · exact .inr hlt
  · refine .inl ⟨.send, { s with sent := s.sent ++ [fun i => s.memory.device (p.rankDst + i)] },
      trivial, ?_⟩
    simp [next, hcons, heq, hq.copies]

/-- Without an all-gather to wait for, all chunks posted have been gathered. -/
theorem gathered_eq (h : Going l n s) (hw : 1 < l.args.worldSize) (hgathers : s.gathers = []) :
    (s.gathered.length : ℤ) = s.pipeline.loader.chunkReading + 1 := by
  rw [h.streamed.length_gathered hw, hq.launched_eq, hgathers]
  simp

end Quiet

end Rank

/-! ## When the group does not move -/

section
variable {α : Type} {l : Load} {backends : ℕ → Backend} {n : ℕ} {file : ℕ → ℕ → α}
  {memory : ℕ → RankMemory α} {s s' : ℕ → Rank α}

/-- All ranks ask for the same tensors, and nothing has failed. -/
def Ranks.Going (l : Load) (backends : ℕ → Backend) (n : ℕ) (s : ℕ → Rank α) : Prop :=
  ∀ r < l.args.worldSize, (s r).Going (l.atRank (backends r) r) n

theorem Ranks.move_of_rank {r : ℕ} (hr : r < l.args.worldSize)
    (h : (s r).Moves (l.atRank (backends r) r) file fun q => (s q).sent) :
    ∃ t s', Ranks.Proper backends t ∧ Ranks.next l backends file t s = some s' := by
  obtain ⟨t, s₁, ht, hnext⟩ := h
  refine ⟨(r, t), Function.update s r s₁, ht, ?_⟩
  rw [Ranks.next, if_pos hr, hnext]
  rfl

/-- A rank that has closed at its limit has posted all that any other rank may have posted. -/
theorem Ranks.Going.closed_reading (h : Ranks.Going l backends n s) {r q : ℕ}
    (hr : r < l.args.worldSize) (hq : q < l.args.worldSize)
    (hend : (s q).pipeline.loader.control = .returned)
    (hshort : ¬ (s q).pipeline.loader.ClosedShort) (hposted : 0 ≤ (s r).pipeline.loader.chunkReading) :
    (s r).pipeline.loader.chunkReading ≤ (s q).pipeline.loader.chunkReading := by
  rcases (l.atRank (backends r) r).run_start (h r hr).running.kept.loader with hstart | hrun
  · rw [hstart] at hposted
    cases hposted
  rcases (l.atRank (backends q) q).run_start (h q hq).running.kept.loader with hstart | hrun'
  · rw [hstart] at hend
    cases hend
  obtain ⟨ho, k, hk⟩ := Load.run_answered hrun
  obtain ⟨ho', k', hk'⟩ := Load.run_answered hrun'
  have hstop := hk'.returned hend
  obtain ⟨rfl, -⟩ := hk'.closed hstop
  have hreached := not_lt.mp fun hlt => hshort ⟨hstop, hlt⟩
  obtain ⟨tensor, -, hget, hlimit, -⟩ := ho.currentTensor
  obtain ⟨tensor', -, hget', hlimit', -⟩ := ho'.currentTensor
  have hcurrent := hk.current
  have hcurrent' := hk'.current
  have hle := hk.le
  rw [ho.tensors] at hget
  rw [ho'.tensors] at hget'
  have hmono : tensor.prefetchChunkId ≤ tensor'.prefetchChunkId :=
    l.layout_sound.prefetch_mono (by omega) hget hget'
  have hreading := ho.reading_le
  omega

theorem Ranks.Going.can_move (h : Ranks.Going l backends n s)
    (hshort : ∀ r < l.args.worldSize, ¬ (s r).pipeline.loader.ClosedShort)
    (hend : ¬ ∀ r < l.args.worldSize, (s r).pipeline.loader.control = .returned) :
    ∃ t s', Ranks.Proper backends t ∧ Ranks.next l backends file t s = some s' := by
  by_contra hstuck
  have hmoves : ∀ r < l.args.worldSize,
      ¬ (s r).Moves (l.atRank (backends r) r) file fun q => (s q).sent :=
    fun r hr hm => hstuck (Ranks.move_of_rank hr hm)
  have hquiet : ∀ r < l.args.worldSize, (s r).Quiet := fun r hr =>
    ((h r hr).quiet_or_moves).resolve_right (hmoves r hr)
  have halone : ∀ r < l.args.worldSize, (s r).gathers = [] →
      (s r).pipeline.loader.control = .returned := by
    intro r hr hgathers
    by_contra hrunning
    exact hmoves r hr ((hquiet r hr).moves_alone (h r hr) hgathers hrunning)
  have hsent : ∀ r < l.args.worldSize, (s r).gathers ≠ [] →
      (s r).gathered.length < (s r).sent.length := fun r hr hgathers =>
    ((hquiet r hr).moves_or_sent (h r hr) hgathers).resolve_left (hmoves r hr)
  -- of the ranks with an all-gather to receive, one that has received least
  classical
  have hexists : ∃ k, ∃ r < l.args.worldSize, (s r).gathers ≠ [] ∧ (s r).gathered.length = k := by
    by_contra hnone
    refine hend fun r hr => halone r hr ?_
    by_contra hgathers
    exact hnone ⟨_, r, hr, hgathers, rfl⟩
  obtain ⟨r, hr, hgathers, hk⟩ := Nat.find_spec hexists
  have hmin : ∀ q < l.args.worldSize, (s q).gathers ≠ [] →
      (s r).gathered.length ≤ (s q).gathered.length := by
    intro q hq hq'
    rw [hk]
    exact Nat.find_min' hexists ⟨q, hq, hq', rfl⟩
  obtain ⟨p, gathers, hcons⟩ := List.exists_cons_of_ne_nil hgathers
  have hw : 1 < l.args.worldSize := ((h r hr).streamed.gathers_head hcons).1
  have hlen : ((s r).gathered.length : ℤ)
      = (s r).launched - (s r).gathers.length + 1 := (h r hr).streamed.length_gathered hw
  rw [(hquiet r hr).launched_eq, hcons, List.length_cons] at hlen
  have hall : ∀ q < l.args.worldSize, (s r).gathered.length < (s q).sent.length := by
    intro q hq
    by_cases hq' : (s q).gathers = []
    · -- it has returned, behind an all-gather for every chunk that anyone has posted
      have hle := h.closed_reading hr hq (halone q hq hq') (hshort q hq) (by omega)
      have hover := (hquiet q hq).gathered_eq (h q hq) hw hq'
      have hge := (h q hq).streamed.sent_ge
      omega
    · exact Nat.lt_of_le_of_lt (hmin q hq hq') (hsent q hq hq')
  obtain ⟨s₁, hnext⟩ : ∃ s₁, (s r).next (l.atRank (backends r) r) file (fun q => (s q).sent) .receive
      = some s₁ := by
    simp only [Rank.next, hcons]
    exact ⟨_, if_pos hall⟩
  exact hmoves r hr ⟨.receive, s₁, trivial, hnext⟩

/-! ## Runs of the group -/

/-- What is left to do for all ranks. -/
def Ranks.toDo (l : Load) (backends : ℕ → Backend) (s : ℕ → Rank α) : ℕ :=
  ∑ r ∈ Finset.range l.args.worldSize, (s r).toDo (l.atRank (backends r) r)

theorem Ranks.Going.step (h : Ranks.Going l backends n s) (hreq : l.layout.Requestable)
    (hn : n ≤ l.layout.tensors.length)
    (hshort : ∀ r < l.args.worldSize, ¬ (s r).pipeline.loader.ClosedShort) {t : ℕ × RankTurn α}
    (ht : Ranks.Proper backends t) (hnext : Ranks.next l backends file t s = some s') :
    Ranks.Going l backends n s' ∧ Ranks.toDo l backends s' < Ranks.toDo l backends s := by
  have hbefore : ∀ r < l.args.worldSize, Ranks.KeptAt l backends (fun _ => List.range n) s r :=
    fun r hr => ⟨(h r hr).running.kept, (h r hr).streamed⟩
  have hkept := Ranks.kept_step hbefore ⟨t, hnext⟩
  unfold Ranks.next at hnext
  split at hnext
  · next hr =>
    obtain ⟨s₁, hturn, rfl⟩ := Option.map_eq_some_iff.mp hnext
    obtain ⟨hrunning, hlt⟩ := ((h _ hr).turn hreq hn ht hturn).resolve_left (hshort _ hr)
    constructor
    · intro r' hr'
      refine ⟨?_, (hkept r' hr').streamed⟩
      by_cases heq : r' = t.1
      · subst heq
        rw [Function.update_self]
        exact hrunning
      · rw [Function.update_of_ne heq]
        exact (h r' hr').running
    · refine Finset.sum_lt_sum (fun r' _ => ?_) ⟨t.1, Finset.mem_range.mpr hr, ?_⟩
      · by_cases heq : r' = t.1
        · subst heq
          rw [Function.update_self]
          exact Nat.le_of_lt hlt
        · rw [Function.update_of_ne heq]
      · rw [Function.update_self]
        exact hlt
  · cases hnext

theorem Load.ranks_going (l : Load) (backends : ℕ → Backend) (n : ℕ) (memory : ℕ → RankMemory α) :
    Ranks.Going l backends n (l.ranks backends (fun _ => List.range n) memory) := by
  intro r _
  obtain ⟨hkept, hstreamed⟩ := l.ranks_kept backends (fun _ => List.range n) memory r
  exact ⟨⟨hkept, rfl, fun _ he => absurd he List.not_mem_nil, fun _ hc => by cases hc⟩, hstreamed⟩

/-- A group in which nothing fails comes to rest with all ranks returned, or one closed too early. -/
theorem Load.group_settles (l : Load) (hreq : l.layout.Requestable) {n : ℕ}
    (hn : n ≤ l.layout.tensors.length) (backends : ℕ → Backend) (file : ℕ → ℕ → α)
    (memory : ℕ → RankMemory α) :
    Inevitable (Ranks.next l backends file) (Ranks.Proper backends)
      (fun s => (∀ r < l.args.worldSize, (s r).pipeline.loader.control = .returned) ∨
        ∃ r < l.args.worldSize, (s r).pipeline.loader.ClosedShort)
      (l.ranks backends (fun _ => List.range n) memory) := by
  refine Inevitable.of_measure (I := Ranks.Going l backends n) (Ranks.toDo l backends) ?_ ?_
    (l.ranks_going backends n memory)
  · intro s h hrest
    obtain ⟨hend, hshort⟩ := not_or.mp hrest
    exact h.can_move (fun r hr hclosed => hshort ⟨r, hr, hclosed⟩) hend
  · intro s h hrest t s' ht hnext
    have hshort := (not_or.mp hrest).2
    exact .inr (h.step hreq hn (fun r hr hclosed => hshort ⟨r, hr, hclosed⟩) ht hnext)

/-- **No rank waits for ever: when serving the requests takes the prefetcher to its limit, every way to
go on leads to a state in which all ranks have answered all requests, closed and returned** — in
whatever order threads, kernel, streams and ranks move, as long as no read and no call fails. -/
theorem Load.group_returns (l : Load) (hreq : l.layout.Requestable) {m : ℕ} {t : TensorMetadate}
    (ht : l.layout.tensors[m]? = some t) (hpace : l.layout.leastReading (m + 1) = t.prefetchChunkId)
    (backends : ℕ → Backend) (file : ℕ → ℕ → α) (memory : ℕ → RankMemory α) :
    Inevitable (Ranks.next l backends file) (Ranks.Proper backends)
      (fun s => ∀ r < l.args.worldSize, (s r).pipeline.loader.control = .returned ∧
        ∀ i ≤ m, .gave i ∈ (s r).pipeline.loader.log)
      (l.ranks backends (fun _ => List.range (m + 1)) memory) := by
  have hn : m + 1 ≤ l.layout.tensors.length := (List.getElem?_eq_some_iff.mp ht).1
  refine (l.group_settles hreq hn backends file memory).imp_run fun s hrun hrest r hr => ?_
  have hkept := Load.run_ranks hrun
  rcases hrest with hreturned | ⟨q, hq, hstop, hshort⟩
  · refine ⟨hreturned r hr, fun i hi => ?_⟩
    exact (Load.run_returned (hkept r hr).pipeline.loader (hreturned r hr)) i (by omega)
  · -- `CLOSE` found nothing left to prefetch
    obtain ⟨hcurrent, hleast⟩ := Load.run_closed (hkept q hq).pipeline.loader hstop
    rcases (l.atRank (backends q) q).run_start (hkept q hq).pipeline.loader with hstart | hopened
    · rw [hstart] at hstop
      cases hstop
    have ho := (l.atRank (backends q) q).run_opened (Load.opened_opened _ _) hopened
    obtain ⟨tensor, -, hget, hlimit, -⟩ := ho.currentTensor
    rw [ho.tensors, hcurrent] at hget
    cases ht.symm.trans hget
    have hleast : l.layout.leastReading (m + 1) ≤ (s q).pipeline.loader.chunkReading := hleast
    omega

/-- The two ranks return, with their tensor handed out. -/
theorem twoRanks_return : Inevitable twoNext (Ranks.Proper twoBackends)
    (fun s => ∀ r < 2, (s r).pipeline.loader.control = .returned ∧
      ∀ i ≤ 0, .gave i ∈ (s r).pipeline.loader.log) twoStart := by
  have hreq : ∀ t ∈ twoRanks.layout.tensors, 0 ≤ t.lastChunkId ∧
      t.lastChunkId < twoRanks.layout.chunks.length ∧ t.lastChunkId ≤ t.prefetchChunkId := by
    decide +kernel
  have hfirst : twoRanks.layout.tensors[0]?.any
      (fun t => decide (twoRanks.layout.leastReading 1 = t.prefetchChunkId)) = true := by
    decide +kernel
  obtain ⟨t, ht, hpace⟩ := (Option.any_eq_true _ _).mp hfirst
  exact twoRanks.group_returns hreq ht (of_decide_eq_true hpace) twoBackends _ _

/-- **A process by itself answers every request**, whatever is left to prefetch when it closes. -/
theorem Load.alone_serves (l : Load) (hreq : l.layout.Requestable) (hw : l.args.worldSize = 1)
    {n : ℕ} (hn : n ≤ l.layout.tensors.length) (backends : ℕ → Backend) (file : ℕ → ℕ → α)
    (memory : ℕ → RankMemory α) :
    Inevitable (Ranks.next l backends file) (Ranks.Proper backends)
      (fun s => ∀ i < n, .gave i ∈ (s 0).pipeline.loader.log)
      (l.ranks backends (fun _ => List.range n) memory) := by
  refine (l.group_settles hreq hn backends file memory).imp_run fun s hrun hrest => ?_
  have hr : 0 < l.args.worldSize := by omega
  have hkept := (Load.run_ranks hrun 0 hr).pipeline
  rcases hrest with hreturned | ⟨q, hq, hstop, -⟩
  · exact Load.run_returned hkept.loader (hreturned 0 hr)
  · have hzero : q = 0 := by omega
    subst hzero
    exact Load.run_gaves hkept.loader hstop

/-- `twoLaps`, closed after its first tensor with chunks left to prefetch. -/
theorem twoLaps_serves : Inevitable (Ranks.next twoLaps (fun _ => .CUFILE) fun _ o => o)
    (Ranks.Proper fun _ => .CUFILE) (fun s => ∀ i < 1, .gave i ∈ (s 0).pipeline.loader.log)
    (twoLaps.ranks (fun _ => .CUFILE) (fun _ => List.range 1) fun _ => ⟨fun _ => 0, fun _ => 0⟩) := by
  have hreq : ∀ t ∈ twoLaps.layout.tensors, 0 ≤ t.lastChunkId ∧
      t.lastChunkId < twoLaps.layout.chunks.length ∧ t.lastChunkId ≤ t.prefetchChunkId := by
    decide +kernel
  exact twoLaps.alone_serves hreq (by decide) (by decide +kernel) _ _ _

end

end InstantTensor
