/-
# `InstantTensor.Stalls` — when the loader thread cannot go on, and how far it has to go

The thread waits for two things: the next request, and the handle of a chunk that has been
posted and not reaped (`Opened.move_blocked`).  Requests are served in order, so there is always a next
one until `CLOSE` has been served.

Every move posts a chunk or takes a request, of which there are finitely many (`Loader.rest`), or
brings the thread closer to its next such move (`Loader.steps`).  What is left over at the end is a
thread that has returned, with an answer to every request in its log (`Load.run_answered`).
-/
import InstantTensor.Collectives
import InstantTensor.Requests

namespace InstantTensor

namespace Loader

section
variable {handles : ℤ → Reap} {s s' : Loader}

/-! ## Waiting -/

theorem waitLoop_blocked {n : ℕ} {first : ℤ} (h : waitLoop handles n first = .error .blocked) :
    ∃ j, first ≤ j ∧ j < first + n ∧ handles j = .pending := by
  induction n generalizing first with
  | zero => cases h
  | succ n ih =>
      rw [waitLoop] at h
      cases hfirst : handles first with
      | pending => exact ⟨first, Int.le_refl _, by omega, hfirst⟩
      | raised => simp [hfirst] at h
      | done =>
          simp only [hfirst] at h
          obtain ⟨j, hlo, hhi, hj⟩ := ih h
          exact ⟨j, by omega, by omega, hj⟩

/-- Some chunk is posted, not reaped, and its handle not done. -/
def Awaits (handles : ℤ → Reap) (s : Loader) : Prop :=
  ∃ j, s.chunkRead < j ∧ j ≤ s.chunkReading ∧ handles j = .pending

theorem waitReadChunk_blocked {chunkId : ℤ}
    (h : waitReadChunk handles chunkId s = .error .blocked) :
    ∃ j, s.chunkRead < j ∧ j ≤ chunkId ∧ chunkId ≤ s.chunkReading ∧ handles j = .pending := by
  unfold waitReadChunk at h
  split at h
  · cases h
  · next hin =>
    rcases bind_error h with hloop | ⟨next, -, h⟩
    · obtain ⟨j, hlo, hhi, hj⟩ := waitLoop_blocked hloop
      exact ⟨j, by omega, by omega, not_lt.mp hin, hj⟩
    · cases h

/-- The wait in front of a post is for a chunk posted before. -/
theorem postReadChunk_blocked {control : Control}
    (h : postReadChunk handles { s with control } = .error .blocked) (hwindow : 0 < s.window) :
    Awaits handles s := by
  unfold postReadChunk at h
  simp only at h
  split at h
  · cases h
  rcases bind_error h with hwait | ⟨s₁, -, h⟩
  · rw [waitWindow_eq] at hwait
    split at hwait
    · obtain ⟨j, hlo, hhi, -, hj⟩ := waitReadChunk_blocked hwait
      have hlo : s.chunkRead < j := hlo
      have hhi : j ≤ s.chunkReading + 1 - s.window := hhi
      exact ⟨j, hlo, by omega, hj⟩
    · cases hwait
  · cases h

/-- What keeps a thread from moving: that it has ended, that there is no request, or a handle. -/
theorem Opened.move_blocked {l : Load} (ho : Opened l s) {pageSize : ℕ} {c : Choice}
    (h : s.move pageSize c = .error .blocked) :
    s.control = .returned ∨ (∃ e, s.control = .failed e) ∨
      s.control = .run ∧ s.stop = false ∧ s.inputQueue = [] ∨ Awaits c.handles s := by
  unfold Loader.move at h
  split at h
  · next hc =>
    split at h
    · cases h
    · next hstop =>
      rw [ho.canStep_eq, ok_bind] at h
      split at h
      · split at h
        · next hq => exact .inr (.inr (.inl ⟨hc, by simpa using hstop, hq⟩))
        · next m inputQueue hq =>
          match m with
          | .open args => exact absurd rfl (ho.queue (.open args) (hq ▸ List.mem_cons_self) args)
          | .close => cases h
          | .getTensorPtr index =>
              simp only [dispatch, getTensorPtr] at h
              split at h
              · cases h
              · split at h
                · cases h
                · cases h
      · cases h
  · rw [ho.canStep_eq, ok_bind] at h
    split at h
    · exact .inr (.inr (.inr (postReadChunk_blocked h ho.window_pos)))
    · cases h
  · next chunkId hc =>
    split at h
    · rw [ho.canStep_eq, ok_bind] at h
      split at h
      · exact .inr (.inr (.inr (postReadChunk_blocked h ho.window_pos)))
      · obtain ⟨j, hlo, hhi, hle, hj⟩ := waitReadChunk_blocked h
        exact .inr (.inr (.inr ⟨j, hlo, by omega, hj⟩))
    · cases h
  · rcases bind_error h with hpoll | ⟨s₁, -, h⟩
    · -- `poll_read_chunk` stops at a handle that is not done
      rcases bind_error hpoll with hloop | ⟨next, -, h⟩
      · obtain ⟨j, he, -⟩ := pollLoop_error hloop
        cases he
      · cases h
    · cases h
  · next hc => exact .inl hc
  · next e hc => exact .inr (.inl ⟨e, hc⟩)

end

/-! ## How far it has to go -/

/-- The chunks to post and the requests to take. -/
def rest (l : Load) (s : Loader) : ℕ :=
  (l.layout.chunks.length - 1 - s.chunkReading).toNat + s.inputQueue.length

/-- How many moves there are at most until the thread posts a chunk, takes a request or ends. -/
def steps (s : Loader) : ℕ :=
  match s.control with
  | .run => 1
  | .tryStep => if s.chunkReading < s.prefetchLimit then 0 else 3
  | .poll none => 2
  | .waitStep chunkId => if s.chunkRead < chunkId then 5 else 4
  | .poll (some _) => 6
  | .returned | .failed _ => 0

theorem steps_le (s : Loader) : s.steps ≤ 6 := by
  unfold steps
  split <;> first | omega | split <;> omega

section
variable {l : Load} {s s' : Loader}

theorem Move.progress (ho : Opened l s) (hm : Move s s') :
    s'.rest l + 1 = s.rest l ∨
      s'.rest l = s.rest l ∧ s'.chunkReading = s.chunkReading ∧ s'.steps < s.steps := by
  have hlimit := ho.limit_lt
  rw [ho.chunks] at hlimit
  cases hm with
  | leave hc =>
      refine .inr ⟨rfl, rfl, ?_⟩
      simp only [steps, hc]
      omega
  | get _ _ hq | close _ _ hq =>
      left
      simp only [rest, hq, List.length_cons]
      omega
  | background hc _ hlt =>
      refine .inr ⟨rfl, rfl, ?_⟩
      simp only [steps, hc]
      change (if s.chunkReading < s.prefetchLimit then 0 else 3) < 1
      rw [if_pos hlt]
      omega
  | post _ hlt | postAwaited _ _ hlt =>
      left
      simp only [rest, posted]
      omega
  | idle hc hge =>
      refine .inr ⟨rfl, rfl, ?_⟩
      simp only [steps, hc]
      rw [if_neg (not_lt.mpr hge)]
      omega
  | reap hc hread =>
      refine .inr ⟨rfl, rfl, ?_⟩
      simp only [steps, hc]
      rw [if_neg (lt_irrefl _), if_pos hread]
      omega
  | give hc =>
      refine .inr ⟨rfl, rfl, ?_⟩
      simp only [steps, hc]
      change (if s.chunkReading < s.prefetchLimit then 0 else 3) < _
      split <;> split <;> omega
  | @poll awaited r hc =>
      refine .inr ⟨rfl, rfl, ?_⟩
      simp only [steps, hc]
      cases awaited with
      | none => simp only [Control.afterPoll]; omega
      | some chunkId =>
          simp only [Control.afterPoll]
          split <;> omega

end

/-! ## Answers -/

/-- The requests taken have been answered, but for a pending one. -/
structure Answered (n k : ℕ) (s : Loader) : Prop extends InOrder n k s where
  log : ∀ i, i + 1 < k ∨ i + 1 = k ∧ s.control.Between → .gave i ∈ s.log
  pending : s.stop = false → s.inputQueue = upcoming n k
  closed : s.stop = true → k = n ∧ ∀ i < n, .gave i ∈ s.log
  returned : s.control = .returned → s.stop = true

section
variable {l : Load} {n k : ℕ} {s s' : Loader}

theorem Answered.move (h : Answered n k s) (hm : Move s s') :
    ∃ k', Answered n k' s' := by
  have hlog : ∀ e ∈ s.log, e ∈ s'.log := by
    intro e he
    cases hm with
    | post | postAwaited | close | give => exact List.mem_cons_of_mem _ he
    | _ => exact he
  rcases h.toInOrder.move hm with ⟨hin, hw⟩ | ⟨hin, hc, tensor, rfl⟩
  · refine ⟨k, hin, ?_, ?_, ?_, ?_⟩
    · rintro i (hlt | ⟨heq, hbetween⟩)
      · exact hlog _ (h.log i (.inl hlt))
      · -- the last request taken is answered by `give`
        cases hm with
        | leave | get | postAwaited => cases hbetween
        | close hc | background hc | post hc | idle hc =>
            exact hlog _ (h.log i (.inr ⟨heq, by rw [hc]; trivial⟩))
        | reap hc =>
            simp only [hc] at hbetween
            cases hbetween
        | give hc =>
            have hi : i = s.currentTensorIndex := by
              have := h.current
              omega
            exact hi ▸ List.mem_cons_self
        | @poll awaited r hc =>
            cases awaited with
            | none => exact h.log i (.inr ⟨heq, by rw [hc]; trivial⟩)
            | some chunkId => cases hbetween
    · cases hm with
      | close => exact fun hopen => by cases hopen
      | get hc => exact absurd (hw (by rw [hc]; rfl)) (by simp [Control.awaits])
      | _ => exact h.pending
    · cases hm with
      | close hc _ hq =>
          obtain ⟨rfl, -⟩ := h.toInOrder.close hq
          refine fun _ => ⟨rfl, fun i hi => List.mem_cons_of_mem _ (h.log i ?_)⟩
          rw [hc]
          exact (Nat.lt_or_eq_of_le (Nat.succ_le_of_lt hi)).imp_right fun heq => ⟨heq, trivial⟩
      | _ => exact fun hstop => ⟨(h.closed hstop).1, fun i hi => hlog _ ((h.closed hstop).2 i hi)⟩
    · cases hm with
      | leave _ hstop => exact fun _ => hstop
      | reap hc => exact fun hc' => by cases hc.symm.trans hc'
      | @poll awaited =>
          intro hc'
          cases awaited with
          | none => cases hc'
          | some chunkId => cases hc'
      | _ => exact fun hc' => by cases hc'
  · refine ⟨k + 1, hin, ?_, fun _ => rfl, fun hstop => ?_, fun hc' => by cases hc'⟩
    · rintro i (hlt | ⟨-, hbetween⟩)
      · refine h.log i ?_
        rw [hc]
        exact (Nat.lt_or_eq_of_le (Nat.le_of_lt_succ hlt)).imp_right fun heq => ⟨heq, trivial⟩
      · cases hbetween
    · have hk := (h.closed hstop).1
      have hle := hin.le
      omega

theorem Answered.fail (h : Answered n k s) (e : LoaderError) :
    Answered n k { s with control := .failed e } where
  toInOrder := ⟨h.le, h.queue, h.current⟩
  log := by
    rintro i (hlt | ⟨-, hbetween⟩)
    · exact h.log i (.inl hlt)
    · cases hbetween
  pending := h.pending
  closed := h.closed
  returned := fun hc => by cases hc

end

end Loader

/-- Requests for tensors 0, 1, 2, … are answered one after the other, and a thread that has returned
has answered all of them. -/
theorem Load.run_answered {l : Load} {n : ℕ} {s : Loader}
    (h : Run (Loader.next l.pageSize) (l.opened (List.range n)) s) :
    Loader.Opened l s ∧ ∃ k, Loader.Answered n k s :=
  run_invariant (P := fun s => ∃ k, Loader.Answered n k s)
    (fun _ _ _ hP hm => hP.elim fun _ hk => hk.move hm)
    (fun _ _ e _ hP _ => hP.imp fun _ hk => hk.fail e) (l.opened_opened _)
    ⟨0, {
      toInOrder := (Loader.handed_opened l n).toInOrder
      log := fun i hi => by omega
      pending := fun _ => script_range n
      closed := fun hstop => by cases hstop
      returned := fun hc => by cases hc }⟩ h

section
variable {l : Load} {n : ℕ} {s : Loader}
  (h : Run (Loader.next l.pageSize) (l.start (List.range n)) s)
include h

theorem Load.run_gaves (hstop : s.stop = true) : ∀ i < n, .gave i ∈ s.log := by
  rcases l.run_start h with rfl | hrun
  · cases hstop
  · obtain ⟨-, k, hk⟩ := l.run_answered hrun
    exact (hk.closed hstop).2

theorem Load.run_returned (hend : s.control = .returned) : ∀ i < n, .gave i ∈ s.log := by
  rcases l.run_start h with rfl | hrun
  · cases hend
  · obtain ⟨-, k, hk⟩ := l.run_answered hrun
    exact (hk.closed (hk.returned hend)).2

/-- When `CLOSE` is served, the last tensor has been asked for, and what its requests take has been
posted. -/
theorem Load.run_closed (hstop : s.stop = true) :
    s.currentTensorIndex = n - 1 ∧ l.layout.leastReading n ≤ s.chunkReading := by
  rcases l.run_start h with rfl | hrun
  · cases hstop
  obtain ⟨-, k, hk⟩ := l.run_answered hrun
  have hn := (hk.closed hstop).1
  refine ⟨hn ▸ hk.current, ?_⟩
  refine (run_invariant (P := fun s => (∃ k, Loader.Posting l n k s) ∧
    (s.stop = true → l.layout.leastReading n ≤ s.chunkReading)) ?_ ?_ (l.opened_opened _)
    ⟨⟨0, Loader.posting_opened l n⟩, fun hstop => by cases hstop⟩ hrun).2.2 hstop
  · rintro s s' ho ⟨⟨k, hk⟩, hclosed⟩ hm
    refine ⟨hk.move ho hm, fun hstop => ?_⟩
    cases hm with
    | close hc _ hq =>
        obtain ⟨rfl, -⟩ := hk.toInOrder.close hq
        have hleast := hk.atLeast
        rw [Loader.AtLeast, hc] at hleast
        exact hleast
    | post | postAwaited =>
        have hle := hclosed hstop
        simp only [Loader.posted]
        omega
    | _ => exact hclosed hstop
  · rintro s handles e - ⟨⟨k, hk⟩, hclosed⟩ -
    exact ⟨⟨k, hk.fail e⟩, hclosed⟩

end

end InstantTensor
