/-
# `InstantTensor.Prefetch` — how far the loader runs ahead, and what it does after `CLOSE`

Two properties of every run of a load, whatever tensors are requested and however requests
and completions fall between the background steps.

The prefetcher stays within the current tensor's limit (`Load.prefetch_bounded`); that is
`Opened`, read off for a reachable state.

`run` calls `try_step` once more after every request, `CLOSE` included, and only then looks
at `stop`.  So when `CLOSE` finds the prefetcher short of its limit, a chunk is posted to
joined threads and freed buffers; it is not exactly when the limit has been reached
(`Load.silent_after_close_iff`).
-/
import InstantTensor.Moves

namespace InstantTensor

/-! ## The prefetch limit -/

/-- **The prefetcher never runs past the current tensor's limit.** -/
theorem Load.prefetch_bounded (l : Load) (gets : List ℕ) {s : Loader}
    (h : Run (Loader.next l.pageSize) (l.start gets) s) :
    s.chunkRead ≤ s.chunkReading ∧
      (s.chunkReading = -1 ∨ ∃ tensor, s.tensors[s.currentTensorIndex]? = some tensor ∧
        s.chunkReading ≤ tensor.prefetchChunkId) ∧
      s.control ≠ .failed .readingBeyondPrefetch := by
  rcases l.run_start h with rfl | hrun
  · exact ⟨Int.le_refl _, .inl rfl, Control.noConfusion⟩
  · have ho := l.run_opened (l.opened_opened gets) hrun
    obtain ⟨tensor, -, hcur, hlimit, -⟩ := ho.currentTensor
    refine ⟨ho.read_le, .inr ⟨tensor, hcur, hlimit ▸ ho.reading_le⟩, fun hfailed => ?_⟩
    rcases l.run_error hrun hfailed with he | he | he | ⟨j, he⟩ <;> cases he

/-- A run of `twoLaps` that jumps to the last tensor. -/
theorem prefetch_bounded_jump :
    ∃ s, Run (Loader.next 4096) (twoLaps.start [0, 2]) s ∧ s.currentTensorIndex = 2 ∧
      s.chunkRead ≤ s.chunkReading ∧
      (s.chunkReading = -1 ∨ ∃ tensor, s.tensors[s.currentTensorIndex]? = some tensor ∧
        s.chunkReading ≤ tensor.prefetchChunkId) ∧
      s.control ≠ .failed .readingBeyondPrefetch := by
  have hexec : ((exec (Loader.next 4096) (List.replicate 20 ⟨true, Loader.upTo 9⟩)
      (twoLaps.start [0, 2])).map Loader.currentTensorIndex) = some 2 := by decide +kernel
  obtain ⟨s, hs, hcur⟩ := Option.map_eq_some_iff.mp hexec
  exact ⟨s, Run.of_exec hs, hcur, twoLaps.prefetch_bounded [0, 2] (Run.of_exec hs)⟩

/-! ## After `CLOSE` -/

/-- How many chunks have been posted. -/
def Loader.posts (s : Loader) : ℕ :=
  s.log.countP fun event => event matches .posted ..

namespace Load

variable {l : Load} {gets : List ℕ} {s s' : Loader}

/-- Setting `stop` is what serving `CLOSE` does. -/
theorem close_cases (h : Loader.Opened l s) (hstep : Step (Loader.next l.pageSize) s s')
    (hopen : s.stop = false) (hstop : s'.stop = true) :
    ∃ inputQueue, s' = { s with
      inputQueue, stop := true, control := .tryStep, log := .closed :: s.log } := by
  obtain ⟨c, hnext⟩ := hstep
  rcases h.next_cases hnext with hm | ⟨e, -, rfl⟩
  · cases hm with
    | close => exact ⟨_, rfl⟩
    | _ => exact absurd (hopen.symm.trans hstop) (by simp)
  · exact absurd (hopen.symm.trans hstop) (by simp)

/-- What is behind a `CLOSE` that an open loader serves. -/
theorem silent_iff (ho : Loader.Opened l s) (hclose : Step (Loader.next l.pageSize) s s')
    (hopen : s.stop = false) (hstop : s'.stop = true) :
    (∀ s'', Run (Loader.next l.pageSize) s' s'' → s''.posts = s'.posts)
      ↔ s.prefetchLimit ≤ s.chunkReading := by
  obtain ⟨inputQueue, rfl⟩ := close_cases ho hclose hopen hstop
  have ho' := ho.step hclose
  constructor
  · intro hsilent
    by_contra hlt
    have hpost := Loader.Move.post (s := { s with
      inputQueue, stop := true, control := .tryStep, log := .closed :: s.log }) rfl
      (not_le.mp hlt)
    obtain ⟨c, -, hnext⟩ := ho'.move_next l.pageSize hpost
    have := hsilent _ (Run.of_next hnext)
    simp [Loader.posts, Loader.posted] at this
  · intro hge s'' hrest
    refine (run_invariant (P := fun t => t.posts = Loader.posts _ ∧ t.stop = true ∧
      t.prefetchLimit ≤ t.chunkReading ∧ t.control.awaits = none) ?_ ?_ ho'
      ⟨rfl, rfl, hge, rfl⟩ hrest).2.1
    · rintro t t' ht ⟨hposts, hstop, hlimit, hawaits⟩ hm
      cases hm with
      | leave => exact ⟨hposts, hstop, hlimit, rfl⟩
      | get _ hopen | close _ hopen | background _ hopen =>
          exact absurd (hopen.symm.trans hstop) (by simp)
      | post _ hlt => exact absurd hlt (not_lt.mpr hlimit)
      | idle => exact ⟨hposts, hstop, hlimit, rfl⟩
      | postAwaited hc | reap hc | give hc =>
          rw [hc] at hawaits
          cases hawaits
      | poll r hc =>
          rw [hc] at hawaits
          cases hawaits
          exact ⟨hposts, hstop, hlimit, rfl⟩
    · rintro t _ _ - ⟨hposts, hstop, hlimit, -⟩ -
      exact ⟨hposts, hstop, hlimit, rfl⟩

/-- **Nothing is posted after `CLOSE` exactly when the prefetcher had nothing left to do.** -/
theorem silent_after_close_iff (l : Load) (gets : List ℕ)
    (hrun : Run (Loader.next l.pageSize) (l.start gets) s)
    (hclose : Step (Loader.next l.pageSize) s s') (hopen : s.stop = false)
    (hstop : s'.stop = true) :
    (∀ s'', Run (Loader.next l.pageSize) s' s'' → s''.posts = s'.posts)
      ↔ s.canStep = .ok false := by
  have ho : Loader.Opened l s := by
    rcases l.run_start hrun with rfl | hrun
    · obtain ⟨c, hnext⟩ := hclose
      rw [l.next_start gets c] at hnext
      exact absurd hstop (by rw [← Option.some.inj hnext]; simp [opened, Loader.create])
    · exact l.run_opened (l.opened_opened gets) hrun
  rw [ho.canStep_eq, Except.ok.injEq, decide_eq_false_iff_not, not_lt]
  exact silent_iff ho hclose hopen hstop

end Load

/-- All requests have arrived, and the I/O is done with chunks 0 to 9. -/
def arrived : Choice := ⟨true, Loader.upTo 9⟩

/-- `twoLaps`, closed as soon as it is open: `CLOSE` is served with the first chunk posted. -/
theorem twoLaps_closes_early :
    ∃ s s', Run (Loader.next 4096) (twoLaps.start []) s ∧ Step (Loader.next 4096) s s' ∧
      s.stop = false ∧ s'.stop = true ∧
      ∃ s'', Run (Loader.next 4096) s' s'' ∧ s''.posts ≠ s'.posts := by
  have hplay : (exec (Loader.next 4096) [arrived, arrived, arrived] (twoLaps.start [])).any
      (fun s => !s.stop && (s.next 4096 arrived).any fun s' => s'.stop &&
        (s'.next 4096 arrived).any fun s'' => s''.posts != s'.posts) = true := by
    decide +kernel
  obtain ⟨s, hrun, hs⟩ := Run.exists_of_exec hplay
  obtain ⟨hopen, hs⟩ := Bool.and_eq_true_iff.mp hs
  obtain ⟨s', hclose, hs'⟩ := (Option.any_eq_true _ _).mp hs
  obtain ⟨hstop, hs'⟩ := Bool.and_eq_true_iff.mp hs'
  obtain ⟨s'', hpost, hposts⟩ := (Option.any_eq_true _ _).mp hs'
  exact ⟨s, s', hrun, ⟨arrived, hclose⟩, by simpa using hopen, hstop, s'', Run.of_next hpost,
    by simpa using hposts⟩

theorem silent_after_close_iff_early :
    ∃ s s' : Loader, s.stop = false ∧ s'.stop = true ∧
      ((∀ s'', Run (Loader.next twoLaps.pageSize) s' s'' → s''.posts = s'.posts)
        ↔ s.canStep = .ok false) := by
  obtain ⟨s, s', hrun, hclose, hopen, hstop, -⟩ := twoLaps_closes_early
  exact ⟨s, s', hopen, hstop, twoLaps.silent_after_close_iff [] hrun hclose hopen hstop⟩

theorem posts_after_close :
    ¬ ∀ (l : Load) (gets : List ℕ) (s s' s'' : Loader),
      Run (Loader.next l.pageSize) (l.start gets) s → Step (Loader.next l.pageSize) s s' →
      s.stop = false → s'.stop = true → Run (Loader.next l.pageSize) s' s'' →
      s''.posts = s'.posts := by
  intro h
  obtain ⟨s, s', hrun, hclose, hopen, hstop, s'', hrest, hposts⟩ := twoLaps_closes_early
  exact hposts (h twoLaps [] s s' s'' hrun hclose hopen hstop hrest)

end InstantTensor
