/-
# `InstantTensor.InFlight` — when chunks in flight stay apart in the device buffer

The prefetch limit protects tensors.  It keeps a chunk from being posted while a tensor it
overwrites is in use; it does not look at chunks.  Two overlapping chunks `i < j` are kept
apart by a tensor that is passed before `j` may be posted and whose answer takes the
reaping of `i` (`Load.CollisionsGuarded`), or by being a whole window apart.

Where neither holds, nothing else does: with slow I/O and requests that need no more than
the chunks before `i`, chunk `j` is posted with `i` in flight (`Load.run_collides`).  So the
chunks in flight stay apart in every run exactly when every overlap within a window is
guarded (`Load.inFlightApart_iff`).
-/
import InstantTensor.Capacity
import InstantTensor.InOrder

namespace InstantTensor

/-- The padded device ranges of chunks `i` and `j` overlap. -/
def Layout.Collide (g : Geometry) (L : Layout) (i j : ℕ) : Prop :=
  ∃ c c', L.chunks[i]? = some c ∧ L.chunks[j]? = some c' ∧
    Meets c.deviceBufferOffset (c.devStop g) c'.deviceBufferOffset (c'.devStop g)

namespace Load

/-- How many chunks of the load may be outstanding. -/
def window (l : Load) : ℤ := min maxPrefetchChunks l.args.ioDepth

/-- Whenever a chunk is posted, the earlier chunks that overlap it have been reaped. -/
def InFlightApart (l : Load) : Prop :=
  ∀ (n : ℕ) (s : Loader), Run (Loader.next l.pageSize) (l.start (List.range n)) s →
    ∀ (j : ℕ) (chunkRead : ℤ), .posted j chunkRead ∈ s.log →
      ∀ i < j, l.layout.Collide l.geometry i j → i ≤ chunkRead

/-- Two overlapping chunks less than a window apart have a tensor between them: it has to
be passed before the later one is in reach, and handing it out reaps the earlier one — or
it cannot be handed out at all. -/
def CollisionsGuarded (l : Load) : Prop :=
  ∀ i j : ℕ, i < j → l.layout.Collide l.geometry i j → j < i + l.window →
    ∃ t ∈ l.layout.tensors, t.prefetchChunkId < j ∧
      (i ≤ t.lastChunkId ∨ t.prefetchChunkId < t.lastChunkId)

end Load

namespace Loader

variable {l : Load} {n k : ℕ} {s s' : Loader}

theorem Opened.window_eq (ho : Opened l s) : s.window = l.window := by
  rw [window, ho.ioDepth, Load.window]

/-! ## Guarded overlaps stay apart -/

/-- The posts so far kept clear of chunks in flight. -/
def Apart (l : Load) (s : Loader) : Prop :=
  ∀ (j : ℕ) (chunkRead : ℤ), .posted j chunkRead ∈ s.log →
    ∀ i < j, l.layout.Collide l.geometry i j → i ≤ chunkRead

/-- A tensor that is passed before chunk `j` is in reach has been handed out when `j` is
posted. -/
theorem Handed.served_of_reach (ho : Opened l s) (h : Handed n k s) {t : TensorMetadate}
    (ht : t ∈ l.layout.tensors) (hlt : t.prefetchChunkId < s.prefetchLimit) :
    t.lastChunkId ≤ s.chunkRead ∧ t.lastChunkId ≤ t.prefetchChunkId := by
  obtain ⟨a, ha⟩ := List.mem_iff_getElem?.mp ht
  obtain ⟨current, -, hcur, hlimit, -⟩ := ho.currentTensor
  rw [← ho.tensors] at ha
  refine h.before a ?_ t ha
  by_contra hge
  rw [ho.tensors] at ha hcur
  have := l.layout_sound.prefetch_mono (Nat.not_lt.mp hge) hcur ha
  omega

theorem Apart.posted (ho : Opened l s) (h : Handed n k s) (hg : l.CollisionsGuarded)
    (ha : Apart l s) (hlt : s.chunkReading < s.prefetchLimit) : Apart l s.posted := by
  intro j r hmem i hij hcollide
  rcases List.mem_cons.mp hmem with heq | hmem
  · rw [Event.posted.injEq] at heq
    obtain ⟨hj, rfl⟩ := heq
    by_cases hnear : (j : ℤ) < i + l.window
    · obtain ⟨t, ht, hpf, hguard⟩ := hg i j hij hcollide hnear
      obtain ⟨hread, hle⟩ := h.served_of_reach ho ht (by omega)
      have hread' : s.chunkRead ≤ s.readAtPost := le_max_left _ _
      omega
    · have hwindow : s.chunkReading + 1 - s.window ≤ s.readAtPost := le_max_right _ _
      rw [ho.window_eq] at hwindow
      omega
  · exact ha j r hmem i hij hcollide

theorem Apart.move (ho : Opened l s) (h : Handed n k s) (hg : l.CollisionsGuarded)
    (ha : Apart l s) (hm : Move s s') : Apart l s' := by
  -- only posting adds a `posted` event
  have hsame : ∀ e : Event, (∀ j r, e ≠ .posted j r) → ∀ t : Loader, t.log = e :: s.log →
      Apart l t := by
    intro e he t ht j r hmem
    rw [ht] at hmem
    rcases List.mem_cons.mp hmem with heq | hmem
    · exact absurd heq.symm (he j r)
    · exact ha j r hmem
  cases hm with
  | post _ hlt => exact Apart.posted ho h hg ha hlt
  | postAwaited _ _ hlt => exact Apart.posted ho h hg ha hlt
  | close => exact hsame .closed (fun _ _ => Event.noConfusion) _ rfl
  | give => exact hsame (.gave _) (fun _ _ => Event.noConfusion) _ rfl
  | _ => exact ha

end Loader

namespace Load

variable {l : Load}

theorem inFlightApart_of_guarded (hg : l.CollisionsGuarded) : l.InFlightApart := by
  intro n s h
  rcases l.run_start h with rfl | hrun
  · exact fun _ _ hmem => absurd hmem List.not_mem_nil
  · refine (run_invariant (P := fun s => (∃ k, Loader.Handed n k s) ∧ Loader.Apart l s) ?_ ?_
      (l.opened_opened _) ⟨⟨0, Loader.handed_opened l n⟩, fun _ _ hmem => absurd hmem
        List.not_mem_nil⟩ hrun).2.2
    · rintro s s' ho ⟨⟨k, h⟩, ha⟩ hm
      exact ⟨h.move ho hm, ha.move ho h hg hm⟩
    · rintro s _ e - ⟨⟨k, h⟩, ha⟩ -
      exact ⟨⟨k, h.fail e⟩, ha⟩

end Load

/-! ## Unguarded overlaps collide -/

namespace Loader

variable {l : Load} {i j n k : ℕ} {s : Loader}

/-- Between two requests, the reaping stands before chunk `i` and the posting before
chunk `j`. -/
structure Behind (l : Load) (i j n k : ℕ) (s : Loader) : Prop extends Ready l n k s where
  read : s.chunkRead < i
  reading : s.chunkReading < j

/-- A chunk up to `j` can be posted without waiting for chunk `i`. -/
theorem Opened.readAtPost_lt (ho : Opened l s) (hwindow : j < i + l.window)
    (hread : s.chunkRead < i) (hreading : s.chunkReading < j) : s.readAtPost < i := by
  unfold readAtPost
  rw [ho.window_eq]
  omega

theorem Behind.tryStep (h : Behind l i j n k s) (hc : s.control = .tryStep)
    (hwindow : j < i + l.window) (hnext : s.chunkReading + 1 < j ∨ s.prefetchLimit < j) :
    ∃ s', Run (next l.pageSize) s s' ∧ Behind l i j n k s' ∧ s'.control = .run := by
  have hpost := h.opened.readAtPost_lt hwindow h.read h.reading
  have hle := h.opened.readAtPost_le
  obtain ⟨s', hrun, hready, hc', -, hread, hreading⟩ :=
    h.toReady.tryStep hc (Int.le_refl _) (by split <;> omega)
  exact ⟨s', hrun, ⟨hready, by omega, by omega⟩, hc'⟩

/-- A tensor that can be handed out from the chunks before `i`, and is passed before `j`, is
handed out. -/
theorem Behind.serve (h : Behind l i j n k s) (hc : s.control = .run) (hwindow : j < i + l.window)
    (hk : k < n) {t : TensorMetadate} (ht : s.tensors[k]? = some t) (hpf : t.prefetchChunkId < j)
    (hlast : t.lastChunkId < i) (hle : t.lastChunkId ≤ t.prefetchChunkId) :
    ∃ s', Run (next l.pageSize) s s' ∧ Behind l i j n (k + 1) s' ∧ s'.control = .run := by
  obtain ⟨u, hserve, hready, hcu, hlimit, hread, -⟩ := h.toReady.serve
    (I := fun read _ => read < i) hc hk ht hle h.read
    (fun u hou hread _ hlt => ⟨u.readAtPost, Int.le_refl _,
      Int.le_trans hou.readAtPost_le (by omega), hou.readAtPost_lt hwindow hread (by omega)⟩)
    (fun _ _ _ _ _ => hlast)
  have hreading := hready.opened.reading_le
  obtain ⟨s', hrest, hbehind, hc'⟩ := Behind.tryStep ⟨hready, hread, by omega⟩ hcu hwindow
    (.inr (by omega))
  exact ⟨s', hserve.trans hrest, hbehind, hc'⟩

/-- How far the thread is from its next post. -/
def Control.rank : Control → ℕ
  | .waitStep _ => 2
  | .run => 1
  | _ => 0

/-- With chunk `j` in reach, it gets posted while chunk `i` is in flight. -/
theorem Opened.run_collides (ho : Opened l s) (hc : ∃ chunkId, s.control = .waitStep chunkId)
    (hstop : s.stop = false) (hlimit : j ≤ s.prefetchLimit) (hwindow : j < i + l.window)
    (hread : s.chunkRead < i) (hreading : s.chunkReading < j) :
    ∃ s', Run (next l.pageSize) s s' ∧ ∃ r : ℤ, .posted j r ∈ s'.log ∧ r < i := by
  set J : Loader → Prop := fun t => (Opened l t ∧ t.stop = false ∧ j ≤ t.prefetchLimit) ∧
    (t.chunkRead < i ∧ t.chunkReading < j) ∧
    (t.control = .run ∨ t.control = .tryStep ∨ ∃ chunkId, t.control = .waitStep chunkId) with hJ
  set left : Loader → ℕ := fun t => 3 * (j - t.chunkReading).toNat + Control.rank t.control
    with hleft
  refine Run.exists_of_measure (I := J) left ?_ ⟨⟨ho, hstop, hlimit⟩, ⟨hread, hreading⟩,
    .inr (.inr hc)⟩
  rintro t ⟨⟨hot, hstop, hlimit⟩, ⟨hread, hreading⟩, hcontrol⟩
  have hlt : t.chunkReading < t.prefetchLimit := by omega
  have hpost := hot.readAtPost_lt hwindow hread hreading
  have hhi : t.readAtPost ≤ t.chunkReading + 1 := Int.le_trans hot.readAtPost_le (by omega)
  -- a round posts chunk `j`, or comes one chunk closer
  have hround : ∀ control, Run (next l.pageSize) t
        { t.posted with chunkRead := t.readAtPost, control } →
      (control = .run ∨ control = .tryStep ∨ ∃ chunkId, control = .waitStep chunkId) →
      Control.rank control < 3 + Control.rank t.control →
      (∃ t', Run (next l.pageSize) t t' ∧ ∃ r : ℤ, .posted j r ∈ t'.log ∧ r < i) ∨
        ∃ t', Run (next l.pageSize) t t' ∧ J t' ∧ left t' < left t := by
    intro control hrun hcontrol hrank
    by_cases hlast : t.chunkReading + 1 = j
    · exact .inl ⟨_, hrun, t.readAtPost, by rw [← hlast]; exact List.mem_cons_self, hpost⟩
    · refine .inr ⟨_, hrun, ⟨⟨l.run_opened hot hrun, hstop, hlimit⟩, ⟨hpost, ?_⟩, hcontrol⟩, ?_⟩
      · simp only [Loader.posted]
        omega
      · simp only [hleft, Loader.posted]
        omega
  rcases hcontrol with hc | hc | ⟨chunkId, hc⟩
  · have hm := Move.background hc hstop hlt
    refine .inr ⟨_, hot.run_move hm, ⟨⟨hot.move hm, hstop, hlimit⟩, ⟨hread, hreading⟩,
      .inr (.inl rfl)⟩, ?_⟩
    simp only [hleft, hc, Control.rank]
    omega
  · exact hround .run (hot.run_post hc hlt (Int.le_refl _) hhi) (.inl rfl) (by rw [hc]; decide)
  · by_cases hwait : t.chunkRead < chunkId
    · exact hround (.waitStep chunkId) (hot.run_postAwaited hc hwait hlt (Int.le_refl _) hhi)
        (.inr (.inr ⟨chunkId, rfl⟩)) (by simp only [hc, Control.rank]; omega)
    · have hm := Move.give hc (not_lt.mp hwait)
      refine .inr ⟨_, hot.run_move hm, ⟨⟨hot.move hm, hstop, hlimit⟩, ⟨hread, hreading⟩,
        .inr (.inl rfl)⟩, ?_⟩
      simp only [hleft, hc, Control.rank]
      omega

end Loader

namespace Load

variable {l : Load}

/-- After `OPEN` and its `try_step`, chunk 0 at most is posted and nothing is reaped. -/
theorem behind_zero (l : Load) {i j n : ℕ} (hij : i < j) (hwindow : j < i + l.window) :
    ∃ s, Run (Loader.next l.pageSize) (l.start (List.range n)) s ∧ Loader.Behind l i j n 0 s ∧
      s.control = .run := by
  have hbehind : Loader.Behind l i j n 0 (l.opened (List.range n)) :=
    ⟨Loader.ready_opened l n, show (-1 : ℤ) < i by omega, show (-1 : ℤ) < j by omega⟩
  obtain ⟨s, hrun, h, hc⟩ := hbehind.tryStep rfl hwindow (.inl (show (-1 : ℤ) + 1 < j by omega))
  exact ⟨s, (l.run_open _).trans hrun, h, hc⟩

/-- The first tensor whose prefetch limit has chunk `j` in reach. -/
theorem exists_first_reaching (l : Load) {j : ℕ} (hj : j < l.layout.chunks.length) :
    ∃ (c : ℕ) (t : TensorMetadate), l.layout.tensors[c]? = some t ∧ (j : ℤ) ≤ t.prefetchChunkId ∧
      ∀ a < c, ∀ u, l.layout.tensors[a]? = some u → u.prefetchChunkId < j := by
  classical
  have hexists : ∃ c : ℕ, ∃ t : TensorMetadate, l.layout.tensors[c]? = some t ∧ (j : ℤ) ≤ t.prefetchChunkId := by
    obtain ⟨t, ht, hfinal⟩ := l.layout_sound.final
    obtain ⟨c, hc⟩ := List.mem_iff_getElem?.mp ht
    exact ⟨c, t, hc, by omega⟩
  obtain ⟨t, ht, hreach⟩ := Nat.find_spec hexists
  refine ⟨Nat.find hexists, t, ht, hreach, fun a ha u hu => ?_⟩
  by_contra hge
  exact Nat.find_min hexists ha ⟨u, hu, not_lt.mp hge⟩

theorem guarded_of_inFlightApart (h : l.InFlightApart) : l.CollisionsGuarded := by
  intro i j hij hcollide hwindow
  by_contra hnone
  have hfree : ∀ t ∈ l.layout.tensors, t.prefetchChunkId < j →
      t.lastChunkId < i ∧ t.lastChunkId ≤ t.prefetchChunkId := by
    intro t ht hpf
    by_contra hbusy
    exact hnone ⟨t, ht, hpf, by omega⟩
  have hj : j < l.layout.chunks.length := by
    obtain ⟨_, _, -, hget, -⟩ := hcollide
    exact (List.getElem?_eq_some_iff.mp hget).1
  obtain ⟨c, t, ht, hreach, hbefore⟩ := l.exists_first_reaching hj
  -- requests 0 to `c - 1` are served from the chunks before `i`
  have hserved : ∀ k ≤ c, ∃ s, Run (Loader.next l.pageSize) (l.start (List.range (c + 1))) s ∧
      Loader.Behind l i j (c + 1) k s ∧ s.control = .run := by
    intro k
    induction k with
    | zero => exact fun _ => l.behind_zero hij hwindow
    | succ k ih =>
        intro hk
        obtain ⟨s, hrun, hbehind, hc⟩ := ih (by omega)
        obtain ⟨u, hu⟩ : ∃ u, l.layout.tensors[k]? = some u := by
          have := (List.getElem?_eq_some_iff.mp ht).1
          exact ⟨_, List.getElem?_eq_getElem (show k < l.layout.tensors.length by omega)⟩
        have hpf := hbefore k (by omega) u hu
        obtain ⟨hlast, hle⟩ := hfree u (List.mem_of_getElem? hu) hpf
        obtain ⟨s', hrest, hbehind'⟩ := hbehind.serve hc hwindow (by omega)
          (hbehind.opened.tensors ▸ hu) hpf hlast hle
        exact ⟨s', hrun.trans hrest, hbehind'⟩
  -- the request for tensor `c` brings chunk `j` into reach
  obtain ⟨s, hrun, hbehind, hc⟩ := hserved c (Nat.le_refl c)
  have hcur := hbehind.inOrder.current
  have ht' : s.tensors[c]? = some t := hbehind.opened.tensors ▸ ht
  have hm := Loader.Move.get hc hbehind.stop
    (hbehind.queue.trans (upcoming_of_lt (Nat.lt_succ_self c))) ht' (by omega)
  obtain ⟨s', hrest, r, hposted, hr⟩ :=
    (hbehind.opened.move hm).run_collides (i := i) (j := j) ⟨_, rfl⟩ hbehind.stop
      (by simp only [Loader.prefetchLimit, ht']; exact hreach) hwindow hbehind.read
      hbehind.reading
  have := h (c + 1) s' (hrun.trans ((hbehind.opened.run_move hm).trans hrest)) j r hposted i hij
    hcollide
  omega

/-- **The chunks in flight stay apart exactly when every overlap within a window is
guarded.** -/
theorem inFlightApart_iff (l : Load) : l.InFlightApart ↔ l.CollisionsGuarded :=
  ⟨guarded_of_inFlightApart, inFlightApart_of_guarded⟩

end Load

/-- Six files of one small tensor, and one with a header of 4080 bytes, a tensor of 10 and a
tensor of 32768 that returns to the start of the buffer.  Chunk 6 is the header with
the small tensor; of the large tensor's chunks 7 to 15, chunk 13 lies over it. -/
def headerInFlight : Load := Load.of 4096 {
    rank := 0
    worldSize := 1
    bufferSize := 32768
    chunkSize := 4096
    numThreads := 1
    ioDepth := 8
    backend := .CUFILE
    tensorOffsets := ((List.range 6).flatMap fun f => [(f, 100), (f, 110)])
      ++ [(6, 4080), (6, 4090), (6, 36858)] } (by decide)

/-- The small tensor ends above chunk 13, so its limit has chunk 13 in reach while chunk 6 is
still being read. -/
theorem headerInFlight_collides : ¬ ∀ l : Load, l.InFlightApart := by
  intro h
  have hcollide : headerInFlight.layout.Collide headerInFlight.geometry 6 13 :=
    ⟨(headerInFlight.layout.chunks[6]?).getD default, (headerInFlight.layout.chunks[13]?).getD default,
      by decide +kernel, by decide +kernel, by decide +kernel⟩
  have hfree : ∀ t ∈ headerInFlight.layout.tensors, t.prefetchChunkId < 13 →
      t.lastChunkId < 6 ∧ t.lastChunkId ≤ t.prefetchChunkId := by decide +kernel
  obtain ⟨t, ht, hpf, hguard⟩ := Load.guarded_of_inFlightApart (h headerInFlight) 6 13 (by decide)
    hcollide (by decide)
  have := hfree t ht hpf
  omega

end InstantTensor
