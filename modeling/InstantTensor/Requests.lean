/-
# `InstantTensor.Requests` — which requests for a tensor can be served

`last_chunk_id` is recorded before the chunk it names exists, and that chunk is pushed only
if it turns out to have bytes.  For a tensor with bytes it does.  A zero-size tensor at the
start of a page names the chunk that comes next: a later one of its lap if there is
one, and otherwise the first chunk of the next lap, which need not exist and need
not be within the tensor's prefetch limit (`Site.last_le_iff`).

`Load.Requestable` says that every tensor names an existing chunk within its prefetch
limit.  Then `get_tensor_ptr` always returns: each move of `wait_step` posts a chunk, reaps
one or returns, and there are at most `prefetch_chunk_id - chunk_reading` chunks left to
post (`Load.get_returns`).
-/
import InstantTensor.Capacity
import InstantTensor.Moves

namespace InstantTensor

/-! ## Last chunks that exist -/

/-- A zero-size tensor at a page start, with no byte behind it in its lap, is followed by
a lap whose first chunk ends at or before it. -/
def EmptyTailsReached (g : Geometry) (laps : List Lap) : Prop :=
  ∀ σ : Site, σ.laps = laps → σ.seg.extents ≠ [] → σ.seg.len = 0 → σ.lapAfter.chunks g = [] →
    ∃ c, (σ.nextChunks g).head? = some c ∧ c.devStop g ≤ σ.seg.dev

section
variable {g : Geometry}

/-- The last chunk of a tensor is one of its lap, unless nothing of the lap is left. -/
theorem Site.last_lt_next (hg : g.WF) {σ : Site} {e : ℕ × ℕ} (hstop : e.2 ≤ σ.seg.stop)
    (h : σ.seg.len ≠ 0 ∨ σ.lapAfter.chunks g ≠ []) :
    σ.first g + (e.2 - σ.seg.base - 1) / g.worldChunkSize < σ.next g := by
  unfold Site.next
  by_cases hlen : σ.seg.len = 0
  · have hafter := List.length_pos_iff.mpr (h.resolve_left (not_not_intro hlen))
    have hzero : e.2 - σ.seg.base - 1 = 0 := by
      unfold Segment.len at hlen
      omega
    rw [hzero, Nat.zero_div]
    omega
  · have hpiece : (e.2 - σ.seg.base - 1) / g.worldChunkSize < (σ.seg.chunks g).length := by
      rw [Segment.chunks_length, divCeil_of_pos hg.chunk_pos (Nat.pos_of_ne_zero hlen)]
      refine Nat.lt_succ_of_le (Nat.div_le_div_right ?_)
      unfold Segment.len
      omega
    omega

theorem Site.next_le_prefetch (σ : Site) (e : ℕ × ℕ) :
    (σ.next g : ℤ) - 1 ≤ (σ.tensor g 0 e).prefetchChunkId := by
  have := (settle_prefetch_bounds (g := g) (0 + σ.next g) (σ.nextChunks g)
    (σ.seg.entry g (0 + σ.first g) e)).1
  simpa [Site.tensor] using this

/-- The last chunk of a tensor is within its prefetch limit, except at the end of a lap. -/
theorem Site.last_le_iff (hg : g.WF) {σ : Site} (hsound : σ.seg.Sound g) {e : ℕ × ℕ}
    (he : e ∈ σ.seg.extents) :
    (σ.tensor g 0 e).lastChunkId ≤ (σ.tensor g 0 e).prefetchChunkId ↔
      (σ.seg.len = 0 → σ.lapAfter.chunks g = [] →
        ∃ c, (σ.nextChunks g).head? = some c ∧ c.devStop g ≤ σ.seg.dev) := by
  obtain ⟨hbase, hle, hstop⟩ := hsound.extents e he
  have hlast : (σ.tensor g 0 e).lastChunkId
      = (σ.first g + (e.2 - σ.seg.base - 1) / g.worldChunkSize : ℕ) := by
    simp [Site.tensor, TensorMetadate.settle, Segment.entry]
  by_cases htail : σ.seg.len = 0 ∧ σ.lapAfter.chunks g = []
  · obtain ⟨hlen, hafter⟩ := htail
    have hzero : e.2 - σ.seg.base - 1 = 0 ∧ e.1 - σ.seg.base = 0 := by
      unfold Segment.len at hlen
      omega
    have hnext : σ.next g = σ.first g := by
      simp [Site.next, Segment.chunks_of_len_zero hg hlen, hafter]
    have hpf : (σ.tensor g 0 e).prefetchChunkId = (σ.next g : ℤ) - 1
        + ((σ.nextChunks g).takeWhile fun c => decide (c.devStop g ≤ σ.seg.dev)).length := by
      simp [Site.tensor, TensorMetadate.settle, Segment.entry, hzero.2]
    rw [hlast, hpf, hzero.1, Nat.zero_div, Nat.add_zero, hnext]
    constructor
    · intro hlt _ _
      cases hchunks : σ.nextChunks g with
      | nil => simp [hchunks] at hlt
      | cons c rest =>
          refine ⟨c, rfl, ?_⟩
          by_contra hfar
          simp [hchunks, hfar] at hlt
    · intro hreached
      obtain ⟨c, hhead, hdev⟩ := hreached hlen hafter
      obtain ⟨rest, hchunks⟩ := List.head?_eq_some_iff.mp hhead
      simp [hchunks, hdev]
  · have hlt := Site.last_lt_next hg hstop (e := e)
      (by rcases not_and_or.mp htail with h | h; exacts [.inl h, .inr h])
    have hpf := σ.next_le_prefetch (g := g) e
    refine iff_of_true ?_ fun hlen hafter => absurd ⟨hlen, hafter⟩ htail
    rw [hlast]
    omega

end

/-- Every tensor names an existing chunk, and one within its prefetch limit. -/
def Layout.Requestable (L : Layout) : Prop :=
  ∀ t ∈ L.tensors, 0 ≤ t.lastChunkId ∧ t.lastChunkId < L.chunks.length ∧
    t.lastChunkId ≤ t.prefetchChunkId

theorem Load.requestable_iff (l : Load) :
    l.layout.Requestable ↔ EmptyTailsReached l.geometry l.plan := by
  have hg := l.wf
  constructor
  · intro h σ hσ hne hlen hafter
    obtain ⟨e, he⟩ := List.exists_mem_of_ne_nil _ hne
    have hsound := (l.plan_sound _ (hσ ▸ σ.mem_plan)).segment σ.seg (by simp)
    have hmem : σ.tensor l.geometry 0 e ∈ l.layout.tensors := by
      rw [l.layout_eq]
      exact mem_settle_tensors.mpr ⟨σ, hσ, e, he, rfl⟩
    exact (σ.last_le_iff hg hsound he).mp (h _ hmem).2.2 hlen hafter
  · intro h t ht
    have hlast := l.layout_sound.last_nonneg t ht
    have hlt := l.layout_sound.prefetch_lt t ht
    rw [l.layout_eq] at ht
    obtain ⟨σ, hσ, e, he, rfl⟩ := mem_settle_tensors.mp ht
    have hsound := (l.plan_sound _ (hσ ▸ σ.mem_plan)).segment σ.seg (by simp)
    have hle := (σ.last_le_iff hg hsound he).mpr (h σ hσ (List.ne_nil_of_mem he))
    exact ⟨hlast, by omega, hle⟩

/-! ## Requests that return -/

/-- The pending request is answered: the newest event since `s` is its answer. -/
def Loader.Answers (s s' : Loader) : Prop :=
  ∃ events, s'.log = .gave s.currentTensorIndex :: (events ++ s.log)

/-- `s'` is a later state of the request pending in `s`. -/
structure Loader.Pending (l : Load) (s s' : Loader) : Prop where
  opened : Opened l s'
  current : s'.currentTensorIndex = s.currentTensorIndex
  awaits : s'.control.awaits = some s'.lastChunk
  log : ∃ events, s'.log = events ++ s.log

/-- What is left of a request: chunks to post, one move of polling, one of reaping. -/
def Loader.toGo (s : Loader) : ℕ :=
  3 * (s.prefetchLimit - s.chunkReading).toNat
    + (match s.control with | .poll _ => 1 | _ => 0)
    + (if s.chunkRead < s.lastChunk then 1 else 0)

namespace Load

variable {l : Load} {s : Loader}

/-- A pending request can always go on. -/
theorem pending_move {s' : Loader} (hreq : l.layout.Requestable) (h : Loader.Pending l s s') :
    ∃ c : Choice, ∃ s'', c.Healthy ∧ s'.next l.pageSize c = some s'' := by
  obtain ⟨tensor, hmem, -, hlimit, hlast⟩ := h.opened.currentTensor
  have hle := (hreq tensor hmem).2.2
  rw [← hlimit, ← hlast] at hle
  suffices hmove : ∃ s'', Loader.Move s' s'' by
    obtain ⟨s'', hm⟩ := hmove
    obtain ⟨c, hc, hnext⟩ := h.opened.move_next l.pageSize hm
    exact ⟨c, s'', hc, hnext⟩
  cases hcontrol : s'.control with
  | waitStep chunkId =>
      have hid : chunkId = s'.lastChunk := h.opened.awaits chunkId (by rw [hcontrol]; rfl)
      by_cases hread : s'.chunkRead < chunkId
      · by_cases hlt : s'.chunkReading < s'.prefetchLimit
        · exact ⟨_, .postAwaited hcontrol hread hlt⟩
        · exact ⟨_, .reap hcontrol hread (not_lt.mp hlt) (by omega)⟩
      · exact ⟨_, .give hcontrol (not_lt.mp hread)⟩
  | poll awaited => exact ⟨_, .poll s'.chunkRead hcontrol (Int.le_refl _) h.opened.read_le⟩
  | _ =>
      have := h.awaits
      rw [hcontrol] at this
      cases this

/-- A move of a pending request answers it or leaves less to do. -/
theorem pending_step {s' s'' : Loader} (hreq : l.layout.Requestable) (h : Loader.Pending l s s')
    {c : Choice} (hc : c.Healthy) (hnext : s'.next l.pageSize c = some s'') :
    Loader.Answers s s'' ∨ Loader.Pending l s s'' ∧ s''.toGo < s'.toGo := by
  obtain ⟨tensor, hmem, -, hlimit, hlast⟩ := h.opened.currentTensor
  have hle := (hreq tensor hmem).2.2
  rw [← hlimit, ← hlast] at hle
  have hawaits := h.awaits
  obtain ⟨events, hlog⟩ := h.log
  rcases h.opened.next_cases hnext with hm | ⟨e, hfails, rfl⟩
  · have hopened := h.opened.move hm
    cases hm with
    | leave hcontrol | get hcontrol | close hcontrol | background hcontrol | post hcontrol
    | idle hcontrol =>
        rw [hcontrol] at hawaits
        cases hawaits
    | postAwaited hcontrol hread hlt =>
        have hid := h.opened.awaits _ (by rw [hcontrol]; rfl)
        refine .inr ⟨⟨hopened, h.current, congrArg some hid, _ :: events, congrArg _ hlog⟩, ?_⟩
        simp only [Loader.toGo, Loader.posted, hcontrol, ← hid, if_pos hread]
        change 3 * (s'.prefetchLimit - (s'.chunkReading + 1)).toNat + 1
          + (if s'.readAtPost < s'.lastChunk then 1 else 0) < _
        split <;> omega
    | reap hcontrol hread hge hin =>
        have hid := h.opened.awaits _ (by rw [hcontrol]; rfl)
        refine .inr ⟨⟨hopened, h.current, hawaits, events, hlog⟩, ?_⟩
        simp only [Loader.toGo, hcontrol, ← hid, if_pos hread]
        change _ + (if _ < s'.lastChunk then 1 else 0) < _
        rw [← hid, if_neg (lt_irrefl _)]
        change 3 * (s'.prefetchLimit - s'.chunkReading).toNat + 0 + 0 < _
        omega
    | give hcontrol hread => exact .inl ⟨events, by rw [← hlog, ← h.current]⟩
    | @poll awaited r hcontrol hlo hhi =>
        rw [hcontrol] at hawaits
        cases hawaits
        refine .inr ⟨⟨hopened, h.current, rfl, events, hlog⟩, ?_⟩
        simp only [Loader.toGo, hcontrol, Control.afterPoll]
        change 3 * (s'.prefetchLimit - s'.chunkReading).toNat + 0
          + (if r < s'.lastChunk then 1 else 0) < _
        split <;> split <;> omega
  · cases hfails with
    | indexOutOfRange hcontrol | outOfOrder hcontrol =>
        rw [hcontrol] at hawaits
        cases hawaits
    | chunkIdOutOfRange hcontrol hge hout =>
        have hid := h.opened.awaits _ (by rw [hcontrol]; rfl)
        omega
    | chunkFailed hraised => exact absurd hraised (hc _)

/-- A request that is being served is answered, whatever the order of completions. -/
theorem get_returns (hreq : l.layout.Requestable) (h : Loader.Opened l s)
    (hawaits : s.control.awaits = some s.lastChunk) :
    Inevitable (Loader.next l.pageSize) Choice.Healthy (Loader.Answers s) s :=
  Inevitable.of_measure (I := Loader.Pending l s) Loader.toGo
    (fun _ hs' _ => pending_move hreq hs')
    (fun _ hs' _ _ _ hc hnext => pending_step hreq hs' hc hnext)
    ⟨h, rfl, hawaits, [], rfl⟩

/-- Whatever tensors are requested, in order, each request is answered, and `wait_step` does
not run into a chunk out of range. -/
def Serves (l : Load) : Prop :=
  ∀ gets : List ℕ, gets.Pairwise (· ≤ ·) → ∀ s, Run (Loader.next l.pageSize) (l.start gets) s →
    s.control ≠ .failed .chunkIdOutOfRange ∧
      ∀ chunkId, s.control.awaits = some chunkId →
        Inevitable (Loader.next l.pageSize) Choice.Healthy (Loader.Answers s) s

theorem serves_of_requestable (hreq : l.layout.Requestable) : l.Serves := by
  intro gets _ s h
  rcases l.run_start h with rfl | hrun
  · exact ⟨Control.noConfusion, fun _ hc => by cases hc⟩
  · have ho := l.run_opened (l.opened_opened gets) hrun
    refine ⟨?_, fun chunkId hc => l.get_returns hreq ho ?_⟩
    · refine (run_invariant (P := fun s => s.control ≠ .failed .chunkIdOutOfRange) ?_ ?_
        (l.opened_opened gets) Control.noConfusion hrun).2
      · intro s s' _ hP hm
        cases hm with
        | @poll awaited => cases awaited <;> exact Control.noConfusion
        | reap => exact hP
        | _ => exact Control.noConfusion
      · intro s handles e ho _ hfails hfailed
        cases hfailed
        cases hfails with
        | chunkIdOutOfRange hcontrol hge hout =>
            obtain ⟨tensor, hmem, -, hlimit, hlast⟩ := ho.currentTensor
            have hle := (hreq tensor hmem).2.2
            have hid := ho.awaits _ (by rw [hcontrol]; rfl)
            omega
    · rw [hc, ho.awaits chunkId hc]

/-- **Every request can be satisfied exactly when no zero-size tensor is left at the end of
its lap.** -/
theorem requests_served_iff (l : Load) :
    (l.layout.Requestable ∧ l.Serves) ↔ EmptyTailsReached l.geometry l.plan := by
  rw [← l.requestable_iff]
  exact ⟨fun h => h.1, fun h => ⟨h, serves_of_requestable h⟩⟩

end Load

/-- A file whose last tensor is empty and starts a page, behind one with ten bytes. -/
def emptyTail : Load := Load.of 4096 {
    rank := 0
    worldSize := 1
    bufferSize := 10
    chunkSize := 4096
    numThreads := 1
    ioDepth := 3
    backend := .CUFILE
    tensorOffsets := [(0, 100), (0, 110), (1, 4096), (1, 4096)] } (by decide)

/-- The empty tensor names chunk 1 of a layout that has one chunk. -/
theorem emptyTail_not_requestable : ¬ ∀ l : Load, l.layout.Requestable ∧ l.Serves := by
  intro h
  have hlast : ¬ ∀ t ∈ emptyTail.layout.tensors, 0 ≤ t.lastChunkId ∧
      t.lastChunkId < emptyTail.layout.chunks.length ∧ t.lastChunkId ≤ t.prefetchChunkId := by
    decide +kernel
  exact hlast (h emptyTail).1

end InstantTensor
