/-
# `InstantTensor.InOrder` — tensors requested one after the other

`tensors()` requests tensors 0, 1, 2, … .  A run of such a load is followed by the number `k`
of requests taken from the queue (`InOrder`); the current tensor is then `k - 1`, and every
tensor before it has been answered: its last chunk was reaped, within its prefetch limit
(`Served`).

The second half builds runs.  `Opened.run_served` drives a pending request to its answer;
how much is reaped at each poll is left to the caller, which lets one runs with slow I/O
and with fast I/O.
-/
import InstantTensor.Moves

namespace InstantTensor

/-- The requests from tensor `k` on, when `n` tensors are requested. -/
def upcoming (n k : ℕ) : List Request := (List.range' k (n - k)).map .getTensorPtr ++ [.close]

theorem script_range (n : ℕ) : Load.script (List.range n) = upcoming n 0 := by
  rw [Load.script, upcoming, List.range_eq_range', Nat.sub_zero]

theorem upcoming_of_lt {n k : ℕ} (h : k < n) :
    upcoming n k = .getTensorPtr k :: upcoming n (k + 1) := by
  rw [upcoming, show n - k = (n - (k + 1)) + 1 by omega, List.range'_succ]
  rfl

theorem upcoming_self (n : ℕ) : upcoming n n = [.close] := by
  simp [upcoming]

/-- No request is pending, and the thread is alive. -/
def Control.Between : Control → Prop
  | .run | .tryStep | .poll none => True
  | _ => False

namespace Loader

/-- `k` of the `n` requests have been taken from the queue. -/
structure InOrder (n k : ℕ) (s : Loader) : Prop where
  le : k ≤ n
  queue : s.inputQueue = upcoming n k ∨ k = n ∧ s.inputQueue = []
  current : s.currentTensorIndex = k - 1

/-- Tensor `a` has been handed out. -/
def Served (s : Loader) (a : ℕ) : Prop :=
  ∀ tensor, s.tensors[a]? = some tensor →
    tensor.lastChunkId ≤ s.chunkRead ∧ tensor.lastChunkId ≤ tensor.prefetchChunkId

/-- The tensors requested so far have been handed out, but for a pending one. -/
structure Handed (n k : ℕ) (s : Loader) : Prop extends InOrder n k s where
  before : ∀ a < s.currentTensorIndex, s.Served a
  now : s.control.Between → 0 < k → s.Served s.currentTensorIndex

variable {l : Load} {n k : ℕ} {s s' : Loader}

theorem InOrder.get (h : InOrder n k s) {index : ℕ} {inputQueue : List Request}
    (hq : s.inputQueue = .getTensorPtr index :: inputQueue) :
    k < n ∧ index = k ∧ inputQueue = upcoming n (k + 1) := by
  rcases h.queue with hqueue | ⟨-, hqueue⟩
  · rcases Nat.lt_or_eq_of_le h.le with hlt | rfl
    · rw [hqueue, upcoming_of_lt hlt, List.cons.injEq, Request.getTensorPtr.injEq] at hq
      exact ⟨hlt, hq.1.symm, hq.2.symm⟩
    · rw [hqueue, upcoming_self] at hq
      cases hq
  · rw [hqueue] at hq
    cases hq

theorem InOrder.close (h : InOrder n k s) {inputQueue : List Request}
    (hq : s.inputQueue = .close :: inputQueue) : k = n ∧ inputQueue = [] := by
  rcases h.queue with hqueue | ⟨-, hqueue⟩
  · rcases Nat.lt_or_eq_of_le h.le with hlt | rfl
    · rw [hqueue, upcoming_of_lt hlt] at hq
      cases hq
    · rw [hqueue, upcoming_self] at hq
      cases hq
      exact ⟨rfl, rfl⟩
  · rw [hqueue] at hq
    cases hq

/-- The requests of a run move on one by one; only taking one from the queue makes the thread
wait. -/
theorem InOrder.move (h : InOrder n k s) (hm : Move s s') :
    (InOrder n k s' ∧ (s.control.awaits = none → s'.control.awaits = none)) ∨
      InOrder n (k + 1) s' ∧ s.control = .run ∧ ∃ tensor : TensorMetadate, s' = { s with
        inputQueue := upcoming n (k + 1)
        currentTensorIndex := k
        control := .waitStep tensor.lastChunkId } := by
  cases hm with
  | get hc _ hq htensor hle =>
      obtain ⟨hlt, rfl, rfl⟩ := h.get hq
      exact .inr ⟨⟨hlt, .inl rfl, rfl⟩, hc, _, rfl⟩
  | close _ _ hq =>
      obtain ⟨hn, rfl⟩ := h.close hq
      exact .inl ⟨⟨h.le, .inr ⟨hn, rfl⟩, h.current⟩, fun _ => rfl⟩
  | postAwaited hc => exact .inl ⟨⟨h.le, h.queue, h.current⟩, fun ha => by rw [hc] at ha; cases ha⟩
  | @poll awaited _ hc =>
      refine .inl ⟨⟨h.le, h.queue, h.current⟩, fun ha => ?_⟩
      rw [hc] at ha
      cases ha
      rfl
  | reap => exact .inl ⟨⟨h.le, h.queue, h.current⟩, fun ha => ha⟩
  | _ => exact .inl ⟨⟨h.le, h.queue, h.current⟩, fun _ => rfl⟩

theorem Served.mono {a : ℕ} (h : s.Served a) (ht : s'.tensors = s.tensors)
    (hr : s.chunkRead ≤ s'.chunkRead) : s'.Served a := by
  intro tensor htensor
  obtain ⟨hread, hpf⟩ := h tensor (ht ▸ htensor)
  exact ⟨Int.le_trans hread hr, hpf⟩

theorem Handed.keep (ho : Opened l s) (h : Handed n k s) (hm : Move s s')
    (hin : InOrder n k s') : Handed n k s' := by
  obtain ⟨htensors, hread⟩ := hm.reads
  have hcur : s'.currentTensorIndex = s.currentTensorIndex := hin.current.trans h.current.symm
  refine ⟨hin, fun a ha => (h.before a (hcur ▸ ha)).mono htensors hread, fun hbetween hk => ?_⟩
  rw [hcur]
  by_cases hwas : s.control.Between
  · exact (h.now hwas hk).mono htensors hread
  · -- the only way back from a pending request is its answer
    cases hm with
    | @give chunkId hc hle =>
        intro tensor htensor
        obtain ⟨current, -, hget, hlimit, hlast⟩ := ho.currentTensor
        have hid := ho.awaits chunkId (by rw [hc]; rfl)
        cases hget.symm.trans htensor
        have := ho.read_le
        have := ho.reading_le
        constructor <;> omega
    | @poll awaited r hc =>
        cases awaited with
        | none => exact absurd (by rw [hc]; trivial) hwas
        | some chunkId => exact absurd hbetween id
    | leave hc | get hc | close hc | background hc | post hc | idle hc =>
        exact absurd (by rw [hc]; trivial) hwas
    | postAwaited => exact absurd hbetween id
    | reap hc => exact absurd hbetween (by rw [hc]; exact id)

theorem Handed.get (h : Handed n k s) (hc : s.control = .run) {chunkId : ℤ}
    (hin : InOrder n (k + 1) { s with
      inputQueue := upcoming n (k + 1)
      currentTensorIndex := k
      control := .waitStep chunkId }) :
    Handed n (k + 1) { s with
      inputQueue := upcoming n (k + 1)
      currentTensorIndex := k
      control := .waitStep chunkId } := by
  refine ⟨hin, fun a ha => ?_, fun hbetween => absurd hbetween id⟩
  have hrun : s.control.Between := by
    rw [hc]
    trivial
  have hcur := h.current
  simp only at ha
  rcases Nat.lt_or_eq_of_le (show a ≤ k - 1 by omega) with hlt | rfl
  · exact h.before a (by omega)
  · exact hcur ▸ h.now hrun (by omega)

theorem Handed.move (ho : Opened l s) (h : Handed n k s) (hm : Move s s') :
    ∃ k', Handed n k' s' := by
  rcases h.toInOrder.move hm with ⟨hin, -⟩ | ⟨hin, hc, tensor, rfl⟩
  · exact ⟨k, h.keep ho hm hin⟩
  · exact ⟨k + 1, h.get hc hin⟩

theorem Handed.fail (h : Handed n k s) (e : LoaderError) :
    Handed n k { s with control := .failed e } :=
  ⟨⟨h.le, h.queue, h.current⟩, h.before, fun hbetween => absurd hbetween id⟩

theorem handed_opened (l : Load) (n : ℕ) : Handed n 0 (l.opened (List.range n)) :=
  ⟨⟨Nat.zero_le n, .inl (script_range n), rfl⟩, fun _ ha => absurd ha (Nat.not_lt_zero _),
    fun _ hk => absurd hk (Nat.lt_irrefl 0)⟩

/-! ## Serving a request -/

/-- `t` serves the same request as `s`, with the same requests behind it. -/
structure SameRequest (s t : Loader) : Prop where
  queue : t.inputQueue = s.inputQueue
  stop : t.stop = s.stop
  current : t.currentTensorIndex = s.currentTensorIndex
  last : t.lastChunk = s.lastChunk
  limit : t.prefetchLimit = s.prefetchLimit

namespace Opened

/-- A pending request is answered by a run in which `I` holds of `chunk_read` and
`chunk_reading`, when `I` is kept by rounds that reap as the caller chooses, and by the
final wait. -/
theorem run_served {I : ℤ → ℤ → Prop} (ho : Opened l s) (hc : s.control = .waitStep s.lastChunk)
    (hle : s.lastChunk ≤ s.prefetchLimit) (hI : I s.chunkRead s.chunkReading)
    (hpost : ∀ t, Opened l t → I t.chunkRead t.chunkReading → t.chunkRead < s.lastChunk →
      t.chunkReading < s.prefetchLimit →
      ∃ r, t.readAtPost ≤ r ∧ r ≤ t.chunkReading + 1 ∧ I r (t.chunkReading + 1))
    (hreap : ∀ read reading, I read reading → read < s.lastChunk → s.prefetchLimit ≤ reading →
      I s.lastChunk reading) :
    ∃ t, Run (next l.pageSize) s
        { t with control := .tryStep, log := .gave t.currentTensorIndex :: t.log } ∧
      Opened l t ∧ SameRequest s t ∧ I t.chunkRead t.chunkReading ∧ s.lastChunk ≤ t.chunkRead := by
  set J : Loader → Prop := fun t => Opened l t ∧ SameRequest s t ∧
    I t.chunkRead t.chunkReading ∧ t.control = .waitStep s.lastChunk with hJ
  set left : Loader → ℕ := fun t => (s.prefetchLimit - t.chunkReading).toNat
    + (if t.chunkRead < s.lastChunk then 1 else 0) with hleft
  have hmove : ∀ t, J t → (∃ t', Run (next l.pageSize) t t' ∧ J t' ∧ s.lastChunk ≤ t'.chunkRead) ∨
      ∃ t', Run (next l.pageSize) t t' ∧ J t' ∧ left t' < left t := by
    rintro t ⟨hot, hsame, hIt, hct⟩
    by_cases hread : t.chunkRead < s.lastChunk
    · right
      by_cases hlt : t.chunkReading < s.prefetchLimit
      · obtain ⟨r, hlo, hhi, hIr⟩ := hpost t hot hIt hread hlt
        have hround := hot.run_postAwaited hct hread (hsame.limit ▸ hlt) hlo hhi
        refine ⟨_, hround, ⟨l.run_opened hot hround, ?_, hIr, rfl⟩, ?_⟩
        · exact ⟨hsame.queue, hsame.stop, hsame.current, hsame.last, hsame.limit⟩
        · simp only [hleft, posted, if_pos hread]
          split <;> omega
      · have hm := Move.reap hct hread (hsame.limit ▸ not_lt.mp hlt) (by omega)
        refine ⟨_, hot.run_move hm, ⟨hot.move hm, ?_, hreap _ _ hIt hread (not_lt.mp hlt), hct⟩, ?_⟩
        · exact ⟨hsame.queue, hsame.stop, hsame.current, hsame.last, hsame.limit⟩
        · simp only [hleft, if_pos hread, if_neg (lt_irrefl s.lastChunk)]
          omega
    · exact .inl ⟨t, Run.refl t, ⟨hot, hsame, hIt, hct⟩, not_lt.mp hread⟩
  obtain ⟨t, hrun, ⟨hot, hsame, hIt, hct⟩, hread⟩ :=
    Run.exists_of_measure left hmove ⟨ho, ⟨rfl, rfl, rfl, rfl, rfl⟩, hI, hc⟩
  exact ⟨t, hrun.trans (hot.run_move (.give hct hread)), hot, hsame, hIt, hread⟩

end Opened

/-- Between two requests of a run. -/
structure Ready (l : Load) (n k : ℕ) (s : Loader) : Prop where
  opened : Opened l s
  inOrder : InOrder n k s
  queue : s.inputQueue = upcoming n k
  stop : s.stop = false

/-- The next request is taken from the queue and answered, in a run in which `I` holds. -/
theorem Ready.serve {I : ℤ → ℤ → Prop} (h : Ready l n k s) (hc : s.control = .run) (hk : k < n)
    {t : TensorMetadate} (ht : s.tensors[k]? = some t) (hle : t.lastChunkId ≤ t.prefetchChunkId)
    (hI : I s.chunkRead s.chunkReading)
    (hpost : ∀ u, Opened l u → I u.chunkRead u.chunkReading → u.chunkRead < t.lastChunkId →
      u.chunkReading < t.prefetchChunkId →
      ∃ r, u.readAtPost ≤ r ∧ r ≤ u.chunkReading + 1 ∧ I r (u.chunkReading + 1))
    (hreap : ∀ read reading, I read reading → read < t.lastChunkId →
      t.prefetchChunkId ≤ reading → I t.lastChunkId reading) :
    ∃ u, Run (next l.pageSize) s u ∧ Ready l n (k + 1) u ∧ u.control = .tryStep ∧
      u.prefetchLimit = t.prefetchChunkId ∧ I u.chunkRead u.chunkReading ∧
      t.lastChunkId ≤ u.chunkRead := by
  have hcur := h.inOrder.current
  have hm := Move.get hc h.stop (h.queue.trans (upcoming_of_lt hk)) ht (by omega)
  set s₁ : Loader := { s with
    inputQueue := upcoming n (k + 1)
    currentTensorIndex := k
    control := .waitStep t.lastChunkId } with hs₁
  have hlast : s₁.lastChunk = t.lastChunkId := by
    simp only [lastChunk, hs₁, ht]
  have hlimit : s₁.prefetchLimit = t.prefetchChunkId := by
    simp only [prefetchLimit, hs₁, ht]
  have ho₁ := h.opened.move hm
  obtain ⟨u, hserve, -, hsame, hIu, hread⟩ := ho₁.run_served (I := I) (by rw [hlast])
    (by rw [hlast, hlimit]; exact hle) hI (by rw [hlast, hlimit]; exact hpost)
    (by rw [hlast, hlimit]; exact hreap)
  refine ⟨_, (h.opened.run_move hm).trans hserve, ⟨l.run_opened ho₁ hserve,
    ⟨hk, .inl hsame.queue, hsame.current⟩, hsame.queue, hsame.stop.trans h.stop⟩, rfl,
    hsame.limit.trans hlimit, hIu, hlast ▸ hread⟩

/-- A call of `try_step` between two requests, with the reaping left to the caller. -/
theorem Ready.tryStep (h : Ready l n k s) (hc : s.control = .tryStep) {r : ℤ}
    (hlo : s.readAtPost ≤ r)
    (hhi : r ≤ if s.chunkReading < s.prefetchLimit then s.chunkReading + 1 else s.chunkReading) :
    ∃ s', Run (next l.pageSize) s s' ∧ Ready l n k s' ∧ s'.control = .run ∧
      s'.prefetchLimit = s.prefetchLimit ∧ s'.chunkRead = r ∧
      s'.chunkReading = min (s.chunkReading + 1) s.prefetchLimit := by
  have hle := h.opened.reading_le
  have hread : s.chunkRead ≤ s.readAtPost := le_max_left _ _
  by_cases hlt : s.chunkReading < s.prefetchLimit
  · rw [if_pos hlt] at hhi
    have hround := h.opened.run_post hc hlt hlo hhi
    refine ⟨_, hround, ⟨l.run_opened h.opened hround, ⟨h.inOrder.le, h.inOrder.queue,
      h.inOrder.current⟩, h.queue, h.stop⟩, rfl, rfl, rfl, ?_⟩
    simp only [posted]
    omega
  · rw [if_neg hlt] at hhi
    have hround := h.opened.run_idle hc (not_lt.mp hlt) (hread.trans hlo) hhi
    refine ⟨_, hround, ⟨l.run_opened h.opened hround, ⟨h.inOrder.le, h.inOrder.queue,
      h.inOrder.current⟩, h.queue, h.stop⟩, rfl, rfl, rfl, ?_⟩
    simp only
    omega

/-- The state after `OPEN`, in front of the first request. -/
theorem ready_opened (l : Load) (n : ℕ) : Ready l n 0 (l.opened (List.range n)) :=
  ⟨l.opened_opened _, ⟨Nat.zero_le n, .inl (script_range n), rfl⟩, script_range n, rfl⟩

end Loader

/-- A run that has served `OPEN`. -/
theorem Load.run_open (l : Load) (gets : List ℕ) :
    Run (Loader.next l.pageSize) (l.start gets) (l.opened gets) :=
  Run.of_next (l.next_start gets ⟨true, Loader.upTo 0⟩)

end InstantTensor
