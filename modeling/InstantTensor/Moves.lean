/-
# `InstantTensor.Moves` — what the loader thread can do

The code of `InstantTensor.Loader` is taken apart once.  After `OPEN` has been served, a move
of the thread is one of ten (`Loader.Move`) or ends the thread for one of four reasons
(`Loader.Fails`); `Opened.next_cases` is the inversion lemma, and `Opened.move_next` says
that each of the ten is a move the thread can really make.  Invariants are proved by
cases on `Move` and never unfold the code.

`Opened` is the invariant itself.  Its core is the chain

    -1 ≤ chunk_read ≤ chunk_reading ≤ prefetch_chunk_id of the current tensor

whose last link survives an advance of the current tensor because prefetch chunks are
monotone (`Layout.Sound.prefetch_mono`).
-/
import Mathlib.Order.Basic
import InstantTensor.Lib.Fallible
import InstantTensor.Sites
import InstantTensor.Loader

namespace InstantTensor

/-- The chunk a pending `wait_step` waits for. -/
def Control.awaits : Control → Option ℤ
  | .waitStep chunkId => some chunkId
  | .poll awaited => awaited
  | _ => none

/-- No handle throws. -/
def Choice.Healthy (c : Choice) : Prop := ∀ j, c.handles j ≠ .raised

namespace Loader

section
variable {handles : ℤ → Reap} {s s' : Loader}

/-! ## The reaping loops -/

theorem waitLoop_ok {n : ℕ} {first next : ℤ} (h : waitLoop handles n first = .ok next) :
    next = first + n ∧ ∀ j, first ≤ j → j < next → handles j = .done := by
  induction n generalizing first with
  | zero =>
      cases h
      refine ⟨by simp, ?_⟩
      intro j hlo hhi
      omega
  | succ n ih =>
      rw [waitLoop] at h
      cases hfirst : handles first with
      | pending => simp [hfirst] at h
      | raised => simp [hfirst] at h
      | done =>
          simp only [hfirst] at h
          obtain ⟨hnext, hall⟩ := ih h
          refine ⟨by omega, ?_⟩
          intro j hlo hhi
          rcases Int.lt_or_eq_of_le hlo with hlt | rfl
          · exact hall j (by omega) hhi
          · exact hfirst

theorem waitLoop_error {n : ℕ} {first : ℤ} {e : Halt} (h : waitLoop handles n first = .error e) :
    e = .blocked ∨ ∃ j, e = .raised (.chunkFailed j) ∧ handles j = .raised := by
  induction n generalizing first with
  | zero => cases h
  | succ n ih =>
      rw [waitLoop] at h
      cases hfirst : handles first with
      | pending =>
          simp only [hfirst, Except.error.injEq] at h
          exact .inl h.symm
      | raised =>
          simp only [hfirst, Except.error.injEq] at h
          exact .inr ⟨first, h.symm, hfirst⟩
      | done =>
          simp only [hfirst] at h
          exact ih h

theorem pollLoop_ok {n : ℕ} {first next : ℤ} (h : pollLoop handles n first = .ok next) :
    first ≤ next ∧ next ≤ first + n ∧ ∀ j, first ≤ j → j < next → handles j = .done := by
  induction n generalizing first with
  | zero =>
      cases h
      refine ⟨by omega, by omega, ?_⟩
      intro j hlo hhi
      omega
  | succ n ih =>
      rw [pollLoop] at h
      cases hfirst : handles first with
      | pending =>
          simp only [hfirst, Except.ok.injEq] at h
          refine ⟨by omega, by omega, ?_⟩
          intro j hlo hhi
          omega
      | raised => simp [hfirst] at h
      | done =>
          simp only [hfirst] at h
          obtain ⟨hlo, hhi, hall⟩ := ih h
          refine ⟨by omega, by omega, ?_⟩
          intro j hj hlt
          rcases Int.lt_or_eq_of_le hj with hlt' | rfl
          · exact hall j (by omega) hlt
          · exact hfirst

theorem pollLoop_error {n : ℕ} {first : ℤ} {e : Halt} (h : pollLoop handles n first = .error e) :
    ∃ j, e = .raised (.chunkFailed j) ∧ handles j = .raised := by
  induction n generalizing first with
  | zero => cases h
  | succ n ih =>
      rw [pollLoop] at h
      cases hfirst : handles first with
      | pending => simp [hfirst] at h
      | raised =>
          simp only [hfirst, Except.error.injEq] at h
          exact ⟨first, h.symm, hfirst⟩
      | done =>
          simp only [hfirst] at h
          exact ih h

/-- All handles up to `k` are done, the others pending. -/
def upTo (k : ℤ) : ℤ → Reap := fun j => if j ≤ k then .done else .pending

theorem upTo_healthy (arrived : Bool) (k : ℤ) : Choice.Healthy ⟨arrived, upTo k⟩ := by
  intro j
  simp only [upTo]
  split <;> exact Reap.noConfusion

theorem waitLoop_upTo {k : ℤ} {n : ℕ} {first : ℤ} (h : first + n ≤ k + 1) :
    waitLoop (upTo k) n first = .ok (first + n) := by
  induction n generalizing first with
  | zero => simp [waitLoop]
  | succ n ih =>
      have hfirst : upTo k first = .done := if_pos (by omega)
      rw [waitLoop, hfirst]
      simp only
      rw [ih (by omega)]
      congr 1
      omega

theorem pollLoop_upTo {k : ℤ} {n : ℕ} {first : ℤ} (hlo : first ≤ k + 1) (hhi : k + 1 ≤ first + n) :
    pollLoop (upTo k) n first = .ok (k + 1) := by
  induction n generalizing first with
  | zero =>
      rw [pollLoop]
      congr 1
      omega
  | succ n ih =>
      rw [pollLoop]
      by_cases hfirst : first ≤ k
      · rw [upTo, if_pos hfirst]
        exact ih (by omega) (by omega)
      · rw [upTo, if_neg hfirst]
        simp only
        congr 1
        omega

/-! ## One spec for each call -/

/-- The errors reaping can end with. -/
def Reaping (handles : ℤ → Reap) (e : Halt) : Prop :=
  e = .blocked ∨ ∃ j, e = .raised (.chunkFailed j) ∧ handles j = .raised

theorem pollReadChunk_ok (h : pollReadChunk handles s = .ok s') (hle : s.chunkRead ≤ s.chunkReading) :
    ∃ r, s.chunkRead ≤ r ∧ r ≤ s.chunkReading ∧ s' = { s with chunkRead := r } ∧
      ∀ j, s.chunkRead < j → j ≤ r → handles j = .done := by
  obtain ⟨next, hloop, h⟩ := bind_ok h
  cases h
  obtain ⟨hlo, hhi, hall⟩ := pollLoop_ok hloop
  exact ⟨next - 1, by omega, by omega, rfl, fun j hj hj' => hall j (by omega) (by omega)⟩

theorem pollReadChunk_error {e : Halt} (h : pollReadChunk handles s = .error e) :
    Reaping handles e := by
  rcases bind_error h with hloop | ⟨next, -, h⟩
  · exact .inr (pollLoop_error hloop)
  · cases h

theorem waitReadChunk_ok {chunkId : ℤ} (h : waitReadChunk handles chunkId s = .ok s') :
    chunkId ≤ s.chunkReading ∧ s' = { s with chunkRead := max s.chunkRead chunkId } ∧
      ∀ j, s.chunkRead < j → j ≤ chunkId → handles j = .done := by
  unfold waitReadChunk at h
  split at h
  · cases h
  · next hin =>
    obtain ⟨next, hloop, h⟩ := bind_ok h
    cases h
    obtain ⟨hnext, hall⟩ := waitLoop_ok hloop
    refine ⟨by omega, ?_, fun j hj hj' => hall j (by omega) (by omega)⟩
    rw [show next - 1 = max s.chunkRead chunkId by omega]

theorem waitReadChunk_error {chunkId : ℤ} {e : Halt} (h : waitReadChunk handles chunkId s = .error e) :
    s.chunkReading < chunkId ∧ e = .raised .chunkIdOutOfRange ∨ Reaping handles e := by
  unfold waitReadChunk at h
  split at h
  · next hout =>
    cases h
    exact .inl ⟨hout, rfl⟩
  · rcases bind_error h with hloop | ⟨next, -, h⟩
    · exact .inr (waitLoop_error hloop)
    · cases h

theorem waitReadChunk_upTo {chunkId : ℤ} (h : chunkId ≤ s.chunkReading) :
    waitReadChunk (upTo chunkId) chunkId s
      = .ok { s with chunkRead := max s.chunkRead chunkId } := by
  rw [waitReadChunk, if_neg (by omega)]
  by_cases hle : s.chunkRead ≤ chunkId
  · rw [waitLoop_upTo (by omega), ok_bind]
    have hmax : s.chunkRead + 1 + ((chunkId - s.chunkRead).toNat : ℤ) - 1
        = max s.chunkRead chunkId := by omega
    rw [hmax]
    rfl
  · rw [show (chunkId - s.chunkRead).toNat = 0 by omega, waitLoop, ok_bind]
    have hmax : s.chunkRead + 1 - 1 = max s.chunkRead chunkId := by omega
    rw [hmax]
    rfl

theorem pollReadChunk_upTo {r : ℤ} (hlo : s.chunkRead ≤ r) (hhi : r ≤ s.chunkReading) :
    pollReadChunk (upTo r) s = .ok { s with chunkRead := r } := by
  rw [pollReadChunk, pollLoop_upTo (by omega) (by omega), ok_bind]
  have hr : r + 1 - 1 = r := by omega
  rw [hr]
  rfl

/-- How many chunks may be outstanding. -/
def window (s : Loader) : ℤ := min maxPrefetchChunks s.ioDepth

/-- What `chunk_read` is once the wait of `post_read_chunk` is over: a chunk is posted only
when the chunk `window` places before it has been reaped. -/
def readAtPost (s : Loader) : ℤ := max s.chunkRead (s.chunkReading + 1 - s.window)

/-- The state `post_read_chunk` leaves behind. -/
def posted (s : Loader) : Loader :=
  { s with
    chunkReading := s.chunkReading + 1
    chunkRead := s.readAtPost
    log := .posted (s.chunkReading + 1) s.readAtPost :: s.log }

theorem waitWindow_eq (handles : ℤ → Reap) (chunkId : ℤ) (s : Loader) :
    waitWindow handles chunkId s = if 0 ≤ chunkId - s.window
      then waitReadChunk handles (chunkId - s.window) s else .ok s := by
  have hwait : max (chunkId - maxPrefetchChunks) (chunkId - s.ioDepth) = chunkId - s.window := by
    unfold window
    omega
  rw [waitWindow, hwait]

theorem waitWindow_ok {chunkId : ℤ} (h : waitWindow handles chunkId s = .ok s')
    (hge : -1 ≤ s.chunkRead) :
    s' = { s with chunkRead := max s.chunkRead (chunkId - s.window) } ∧
      ∀ j, s.chunkRead < j → j ≤ s'.chunkRead → handles j = .done := by
  rw [waitWindow_eq] at h
  split at h
  · obtain ⟨-, rfl, hall⟩ := waitReadChunk_ok h
    refine ⟨rfl, fun j hj hj' => hall j hj ?_⟩
    simp only at hj'
    omega
  · next hneg =>
    cases h
    refine ⟨?_, fun j hj hj' => by omega⟩
    rw [max_eq_left (by omega)]

theorem waitWindow_error {chunkId : ℤ} {e : Halt} (h : waitWindow handles chunkId s = .error e)
    (hin : chunkId ≤ s.chunkReading) (hwindow : 0 < s.window) : Reaping handles e := by
  rw [waitWindow_eq] at h
  split at h
  · rcases waitReadChunk_error h with ⟨hout, -⟩ | he
    · omega
    · exact he
  · cases h

theorem waitWindow_upTo {chunkId : ℤ} (hin : chunkId ≤ s.chunkReading) (hwindow : 0 < s.window)
    (hge : -1 ≤ s.chunkRead) :
    waitWindow (upTo (chunkId - s.window)) chunkId s
      = .ok { s with chunkRead := max s.chunkRead (chunkId - s.window) } := by
  rw [waitWindow_eq]
  split
  · exact waitReadChunk_upTo (by omega)
  · rw [max_eq_left (by omega)]

theorem postReadChunk_ok (h : postReadChunk handles s = .ok s') (hge : -1 ≤ s.chunkRead) :
    s' = s.posted ∧ ∀ j, s.chunkRead < j → j ≤ s'.chunkRead → handles j = .done := by
  unfold postReadChunk at h
  simp only at h
  split at h
  · cases h
  · obtain ⟨s₁, hwait, h⟩ := bind_ok h
    cases h
    obtain ⟨rfl, hall⟩ := waitWindow_ok hwait hge
    exact ⟨rfl, hall⟩

theorem postReadChunk_error {e : Halt} (h : postReadChunk handles s = .error e)
    (hin : s.chunkReading + 1 < s.chunks.length) (hwindow : 0 < s.window) :
    Reaping handles e := by
  rw [postReadChunk] at h
  simp only [if_neg (show ¬ (s.chunks.length : ℤ) ≤ s.chunkReading + 1 by omega)] at h
  rcases bind_error h with hwait | ⟨s₁, -, h⟩
  · exact waitWindow_error hwait (Int.le_refl _) hwindow
  · cases h

theorem postReadChunk_upTo (hin : s.chunkReading + 1 < s.chunks.length) (hwindow : 0 < s.window)
    (hge : -1 ≤ s.chunkRead) :
    postReadChunk (upTo (s.chunkReading + 1 - s.window)) s = .ok s.posted := by
  rw [postReadChunk]
  simp only [if_neg (show ¬ (s.chunks.length : ℤ) ≤ s.chunkReading + 1 by omega)]
  have hwait := waitWindow_upTo (s := { s with chunkReading := s.chunkReading + 1 })
    (Int.le_refl (s.chunkReading + 1)) hwindow hge
  exact congrArg (· >>= _) hwait

/-- The prefetch chunk of the current tensor. -/
def prefetchLimit (s : Loader) : ℤ :=
  match s.tensors[s.currentTensorIndex]? with
  | some tensor => tensor.prefetchChunkId
  | none => -1

theorem canStep_eq (hcur : s.currentTensorIndex < s.tensors.length)
    (hle : s.chunkReading ≤ s.prefetchLimit) :
    s.canStep = .ok (decide (s.chunkReading < s.prefetchLimit)) := by
  unfold prefetchLimit at *
  rw [canStep, if_neg (by omega)]
  rw [List.getElem?_eq_getElem hcur] at *
  simp only at *
  rw [if_neg (by omega)]

end

/-! ## The moves -/

/-- The last chunk of the current tensor. -/
def lastChunk (s : Loader) : ℤ :=
  match s.tensors[s.currentTensorIndex]? with
  | some tensor => tensor.lastChunkId
  | none => -1

/-- What the thread can do after `OPEN`. -/
inductive Move : Loader → Loader → Prop
  | leave {s : Loader} : s.control = .run → s.stop = true → Move s { s with control := .returned }
  | get {s : Loader} {index : ℕ} {inputQueue : List Request} {tensor : TensorMetadate} :
      s.control = .run → s.stop = false → s.inputQueue = .getTensorPtr index :: inputQueue →
      s.tensors[index]? = some tensor → s.currentTensorIndex ≤ index →
      Move s { s with
        inputQueue
        currentTensorIndex := index
        control := .waitStep tensor.lastChunkId }
  | close {s : Loader} {inputQueue : List Request} :
      s.control = .run → s.stop = false → s.inputQueue = .close :: inputQueue →
      Move s { s with inputQueue, stop := true, control := .tryStep, log := .closed :: s.log }
  | background {s : Loader} : s.control = .run → s.stop = false →
      s.chunkReading < s.prefetchLimit → Move s { s with control := .tryStep }
  | post {s : Loader} : s.control = .tryStep → s.chunkReading < s.prefetchLimit →
      Move s { s.posted with control := .poll none }
  | postAwaited {s : Loader} {chunkId : ℤ} : s.control = .waitStep chunkId →
      s.chunkRead < chunkId → s.chunkReading < s.prefetchLimit →
      Move s { s.posted with control := .poll (some chunkId) }
  | idle {s : Loader} : s.control = .tryStep → s.prefetchLimit ≤ s.chunkReading →
      Move s { s with control := .poll none }
  | reap {s : Loader} {chunkId : ℤ} : s.control = .waitStep chunkId → s.chunkRead < chunkId →
      s.prefetchLimit ≤ s.chunkReading → chunkId ≤ s.chunkReading →
      Move s { s with chunkRead := chunkId }
  | give {s : Loader} {chunkId : ℤ} : s.control = .waitStep chunkId → chunkId ≤ s.chunkRead →
      Move s { s with control := .tryStep, log := .gave s.currentTensorIndex :: s.log }
  | poll {s : Loader} {awaited : Option ℤ} (r : ℤ) : s.control = .poll awaited →
      s.chunkRead ≤ r → r ≤ s.chunkReading →
      Move s { s with chunkRead := r, control := .afterPoll awaited }

section
variable {s s' : Loader}

/-- Moves leave the tensors alone and never take back what has been reaped. -/
theorem Move.reads (hm : Move s s') : s'.tensors = s.tensors ∧ s.chunkRead ≤ s'.chunkRead := by
  cases hm with
  | post => exact ⟨rfl, le_max_left _ _⟩
  | postAwaited => exact ⟨rfl, le_max_left _ _⟩
  | reap _ hread => exact ⟨rfl, le_of_lt hread⟩
  | poll r _ hlo => exact ⟨rfl, hlo⟩
  | _ => exact ⟨rfl, Int.le_refl _⟩

end

/-- The chunks reaped on the way from `s` to `s'` had their handles done. -/
def Reaped (handles : ℤ → Reap) (s s' : Loader) : Prop :=
  ∀ j, s.chunkRead < j → j ≤ s'.chunkRead → handles j = .done

theorem Reaped.of_eq {handles : ℤ → Reap} {s s' : Loader} (h : s'.chunkRead = s.chunkRead) :
    Reaped handles s s' := by
  intro j hlo hhi
  omega

/-- What can end the thread after `OPEN`, where reaping does what `handles` says. -/
inductive Fails (handles : ℤ → Reap) : Loader → LoaderError → Prop
  | indexOutOfRange {s : Loader} {index : ℕ} {inputQueue : List Request} :
      s.control = .run → s.inputQueue = .getTensorPtr index :: inputQueue →
      s.tensors.length ≤ index → Fails handles s .indexOutOfRange
  | outOfOrder {s : Loader} {index : ℕ} {inputQueue : List Request} :
      s.control = .run → s.inputQueue = .getTensorPtr index :: inputQueue →
      index < s.currentTensorIndex → Fails handles s .outOfOrder
  | chunkIdOutOfRange {s : Loader} {chunkId : ℤ} : s.control = .waitStep chunkId →
      s.prefetchLimit ≤ s.chunkReading → s.chunkReading < chunkId →
      Fails handles s .chunkIdOutOfRange
  | chunkFailed {s : Loader} {chunkId : ℤ} : handles chunkId = .raised →
      Fails handles s (.chunkFailed chunkId)

/-- The invariant after `OPEN`. -/
structure Opened (l : Load) (s : Loader) : Prop where
  tensors : s.tensors = l.layout.tensors
  chunks : s.chunks = l.layout.chunks
  ioDepth : s.ioDepth = l.args.ioDepth
  queue : ∀ m ∈ s.inputQueue, ∀ args, m ≠ .open args
  current : s.currentTensorIndex < s.tensors.length
  read_ge : -1 ≤ s.chunkRead
  read_le : s.chunkRead ≤ s.chunkReading
  reading_le : s.chunkReading ≤ s.prefetchLimit
  awaits : ∀ chunkId, s.control.awaits = some chunkId → chunkId = s.lastChunk

namespace Opened

variable {l : Load} {s s' : Loader}

theorem window_pos (h : Opened l s) : 0 < s.window := by
  have hdepth := l.admitted.ioDepth_pos
  rw [window, h.ioDepth]
  unfold maxPrefetchChunks
  omega

theorem currentTensor (h : Opened l s) : ∃ tensor ∈ l.layout.tensors,
    s.tensors[s.currentTensorIndex]? = some tensor ∧ s.prefetchLimit = tensor.prefetchChunkId ∧
      s.lastChunk = tensor.lastChunkId := by
  obtain ⟨tensor, hget⟩ : ∃ tensor, s.tensors[s.currentTensorIndex]? = some tensor :=
    ⟨_, List.getElem?_eq_getElem h.current⟩
  refine ⟨tensor, h.tensors ▸ List.mem_of_getElem? hget, hget, ?_, ?_⟩
  · rw [prefetchLimit, hget]
  · rw [lastChunk, hget]

theorem limit_lt (h : Opened l s) : s.prefetchLimit < s.chunks.length := by
  obtain ⟨tensor, hmem, -, hlimit, -⟩ := h.currentTensor
  rw [hlimit, h.chunks]
  exact l.layout_sound.prefetch_lt tensor hmem

theorem canStep_eq (h : Opened l s) :
    s.canStep = .ok (decide (s.chunkReading < s.prefetchLimit)) :=
  Loader.canStep_eq h.current h.reading_le

/-! ### Inversion -/

theorem move_ok (h : Opened l s) {pageSize : ℕ} {c : Choice}
    (hm : s.move pageSize c = .ok s') : Move s s' ∧ Reaped c.handles s s' := by
  unfold Loader.move at hm
  split at hm
  · next hc =>
    split at hm
    · next hstop =>
      cases hm
      exact ⟨.leave hc hstop, .of_eq rfl⟩
    · next hstop =>
      rw [Bool.not_eq_true] at hstop
      rw [h.canStep_eq, ok_bind] at hm
      split at hm
      · split at hm
        · cases hm
        · next m inputQueue hq =>
          match m with
          | .open args => exact absurd rfl (h.queue (.open args) (hq ▸ List.mem_cons_self) args)
          | .close =>
              cases hm
              exact ⟨.close hc hstop hq, .of_eq rfl⟩
          | .getTensorPtr index =>
              simp only [dispatch, getTensorPtr] at hm
              split at hm
              · cases hm
              · next tensor htensor =>
                split at hm
                · cases hm
                · next hle =>
                  cases hm
                  exact ⟨.get hc hstop hq htensor (Nat.not_lt.mp hle), .of_eq rfl⟩
      · next hcan =>
        cases hm
        have hlt : s.chunkReading < s.prefetchLimit := by
          by_contra hge
          exact hcan (by simp [hge])
        exact ⟨.background hc hstop hlt, .of_eq rfl⟩
  · next hc =>
    rw [h.canStep_eq, ok_bind] at hm
    split at hm
    · next hcan =>
      obtain ⟨rfl, hall⟩ := postReadChunk_ok hm h.read_ge
      exact ⟨.post hc (of_decide_eq_true hcan), hall⟩
    · next hcan =>
      cases hm
      exact ⟨.idle hc (not_lt.mp (by simpa using hcan)), .of_eq rfl⟩
  · next chunkId hc =>
    split at hm
    · next hread =>
      rw [h.canStep_eq, ok_bind] at hm
      split at hm
      · next hcan =>
        obtain ⟨rfl, hall⟩ := postReadChunk_ok hm h.read_ge
        exact ⟨.postAwaited hc hread (of_decide_eq_true hcan), hall⟩
      · next hcan =>
        obtain ⟨hin, rfl, hall⟩ := waitReadChunk_ok hm
        rw [max_eq_right (le_of_lt hread)]
        exact ⟨.reap hc hread (not_lt.mp (by simpa using hcan)) hin, hall⟩
    · next hread =>
      cases hm
      exact ⟨.give hc (not_lt.mp hread), .of_eq rfl⟩
  · next awaited hc =>
    obtain ⟨s₁, hpoll, hm⟩ := bind_ok hm
    cases hm
    obtain ⟨r, hlo, hhi, rfl, hall⟩ := pollReadChunk_ok hpoll h.read_le
    exact ⟨.poll r hc hlo hhi, hall⟩
  · cases hm
  · cases hm

theorem move_error (h : Opened l s) {pageSize : ℕ} {c : Choice} {e : LoaderError}
    (hm : s.move pageSize c = .error (.raised e)) : Fails c.handles s e := by
  have hreaping : ∀ {e : LoaderError}, Reaping c.handles (.raised e) → Fails c.handles s e := by
    intro e he
    rcases he with he | ⟨j, he, hraised⟩
    · cases he
    · cases he
      exact .chunkFailed hraised
  have hpost : s.chunkReading < s.prefetchLimit → s.chunkReading + 1 < s.chunks.length := by
    have := h.limit_lt
    omega
  unfold Loader.move at hm
  split at hm
  · next hc =>
    split at hm
    · cases hm
    · rw [h.canStep_eq, ok_bind] at hm
      split at hm
      · split at hm
        · cases hm
        · next m inputQueue hq =>
          match m with
          | .open args => exact absurd rfl (h.queue (.open args) (hq ▸ List.mem_cons_self) args)
          | .close => cases hm
          | .getTensorPtr index =>
              simp only [dispatch, getTensorPtr] at hm
              split at hm
              · next hnone =>
                cases hm
                exact .indexOutOfRange hc hq (List.getElem?_eq_none_iff.mp hnone)
              · split at hm
                · next hlt =>
                  cases hm
                  exact .outOfOrder hc hq hlt
                · cases hm
      · cases hm
  · rw [h.canStep_eq, ok_bind] at hm
    split at hm
    · next hcan =>
      exact hreaping (postReadChunk_error hm (hpost (of_decide_eq_true hcan)) h.window_pos)
    · cases hm
  · next chunkId hc =>
    split at hm
    · rw [h.canStep_eq, ok_bind] at hm
      split at hm
      · next hcan =>
        exact hreaping (postReadChunk_error hm (hpost (of_decide_eq_true hcan)) h.window_pos)
      · next hcan =>
        rcases waitReadChunk_error hm with ⟨hout, he⟩ | he
        · cases he
          exact .chunkIdOutOfRange hc (not_lt.mp (by simpa using hcan)) hout
        · exact hreaping he
    · cases hm
  · rcases bind_error hm with hpoll | ⟨s₁, -, hm⟩
    · exact hreaping (pollReadChunk_error hpoll)
    · cases hm
  · cases hm
  · cases hm

/-- Every step after `OPEN` is one of the moves, or ends the thread. -/
theorem next_cases (h : Opened l s) {pageSize : ℕ} {c : Choice}
    (hnext : s.next pageSize c = some s') :
    Move s s' ∨ ∃ e, Fails c.handles s e ∧ s' = { s with control := .failed e } := by
  unfold Loader.next at hnext
  split at hnext
  · next hm =>
    cases hnext
    exact .inl (h.move_ok hm).1
  · cases hnext
  · next e hm =>
    cases hnext
    exact .inr ⟨e, h.move_error hm, rfl⟩

theorem next_reaped (h : Opened l s) {pageSize : ℕ} {c : Choice}
    (hnext : s.next pageSize c = some s') : Reaped c.handles s s' := by
  unfold Loader.next at hnext
  split at hnext
  · next hm =>
    cases hnext
    exact (h.move_ok hm).2
  · cases hnext
  · cases hnext
    exact .of_eq rfl

/-! ### Realisation -/

/-- The state with another head of `run` or of `wait_step` to come back to. -/
theorem posted_upTo (h : Opened l s) (control : Control) (hlt : s.chunkReading < s.prefetchLimit) :
    postReadChunk (upTo (s.chunkReading + 1 - s.window)) { s with control }
      = .ok { s.posted with control } := by
  have := h.limit_lt
  exact postReadChunk_upTo (s := { s with control }) (show s.chunkReading + 1 < s.chunks.length by omega)
    h.window_pos h.read_ge

/-- Each of the moves is one the thread can make, with all I/O in order. -/
theorem move_next (h : Opened l s) (pageSize : ℕ) (hm : Move s s') :
    ∃ c : Choice, c.Healthy ∧ s.next pageSize c = some s' := by
  have hcan : s.chunkReading < s.prefetchLimit → s.canStep = .ok true := fun hlt => by
    rw [h.canStep_eq, decide_eq_true hlt]
  have hcannot : s.prefetchLimit ≤ s.chunkReading → s.canStep = .ok false := fun hge => by
    rw [h.canStep_eq, decide_eq_false (not_lt.mpr hge)]
  suffices hmove : ∃ arrived k, s.move pageSize ⟨arrived, upTo k⟩ = .ok s' by
    obtain ⟨arrived, k, hc⟩ := hmove
    exact ⟨⟨arrived, upTo k⟩, upTo_healthy arrived k, by rw [next, hc]⟩
  cases hm with
  | leave hc hstop => exact ⟨true, 0, by rw [Loader.move, hc]; simp [hstop]⟩
  | get hc hstop hq htensor hle =>
      refine ⟨true, 0, ?_⟩
      rw [Loader.move, hc]
      simp [hstop, h.canStep_eq, hq, dispatch, getTensorPtr, htensor, Nat.not_lt.mpr hle]
  | close hc hstop hq =>
      refine ⟨true, 0, ?_⟩
      rw [Loader.move, hc]
      simp [hstop, h.canStep_eq, hq, dispatch]
  | background hc hstop hlt =>
      refine ⟨false, 0, ?_⟩
      rw [Loader.move, hc]
      simp only [hstop, hcan hlt]
      rfl
  | post hc hlt =>
      refine ⟨false, s.chunkReading + 1 - s.window, ?_⟩
      rw [Loader.move, hc]
      simp only [hcan hlt, ok_bind, if_true]
      exact h.posted_upTo (.poll none) hlt
  | postAwaited hc hread hlt =>
      refine ⟨false, s.chunkReading + 1 - s.window, ?_⟩
      rw [Loader.move, hc]
      simp only [if_pos hread, hcan hlt, ok_bind, if_true]
      exact h.posted_upTo (.poll (some _)) hlt
  | idle hc hge =>
      refine ⟨false, 0, ?_⟩
      rw [Loader.move, hc]
      simp only [hcannot hge]
      rfl
  | @reap chunkId hc hread hge hin =>
      refine ⟨false, chunkId, ?_⟩
      rw [Loader.move, hc]
      simp only [if_pos hread, hcannot hge, ok_bind, Bool.false_eq_true, if_false]
      rw [waitReadChunk_upTo hin, max_eq_right (le_of_lt hread), hc]
  | give hc hread =>
      refine ⟨false, 0, ?_⟩
      rw [Loader.move, hc]
      simp only [if_neg (not_lt.mpr hread)]
  | poll r hc hlo hhi =>
      refine ⟨false, r, ?_⟩
      rw [Loader.move, hc]
      simp only [pollReadChunk_upTo hlo hhi]
      rfl

/-! ### The invariant -/

theorem readAtPost_le (h : Opened l s) : s.readAtPost ≤ s.chunkReading := by
  have := h.window_pos
  have := h.read_le
  unfold readAtPost
  omega

theorem move (h : Opened l s) (hm : Move s s') : Opened l s' := by
  have hread := h.readAtPost_le
  have hread' : -1 ≤ s.readAtPost := by
    have := h.read_ge
    unfold readAtPost
    omega
  have := h.read_ge
  have := h.read_le
  cases hm with
  | leave => exact { h with awaits := fun _ hc => by cases hc }
  | @get index inputQueue tensor _ _ hq htensor hle =>
      have hlimit : s.prefetchLimit ≤ tensor.prefetchChunkId := by
        obtain ⟨current, -, hcur, hlim, -⟩ := h.currentTensor
        rw [hlim]
        rw [h.tensors] at hcur htensor
        exact l.layout_sound.prefetch_mono hle hcur htensor
      refine { h with
        queue := fun m hm => h.queue m (hq ▸ List.mem_cons_of_mem _ hm)
        current := (List.getElem?_eq_some_iff.mp htensor).1
        reading_le := ?_
        awaits := ?_ }
      · simp only [prefetchLimit, htensor]
        exact Int.le_trans h.reading_le hlimit
      · rintro _ ⟨⟩
        simp only [lastChunk, htensor]
  | close _ _ hq =>
      exact { h with
        queue := fun m hm => h.queue m (hq ▸ List.mem_cons_of_mem _ hm)
        awaits := fun _ hc => by cases hc }
  | background => exact { h with awaits := fun _ hc => by cases hc }
  | post _ hlt =>
      exact { h with
        read_ge := hread'
        read_le := by simp only [posted]; omega
        reading_le := hlt
        awaits := fun _ hc => by cases hc }
  | postAwaited hc _ hlt =>
      exact { h with
        read_ge := hread'
        read_le := by simp only [posted]; omega
        reading_le := hlt
        awaits := fun _ hc' => h.awaits _ (by rw [hc]; exact hc') }
  | idle => exact { h with awaits := fun _ hc => by cases hc }
  | reap hc _ _ hin =>
      exact { h with
        read_ge := by simp only; omega
        read_le := hin
        awaits := fun _ hc' => h.awaits _ hc' }
  | give => exact { h with awaits := fun _ hc => by cases hc }
  | @poll awaited r hc hlo hhi =>
      refine { h with
        read_ge := by simp only; omega
        read_le := hhi
        awaits := fun _ hc' => h.awaits _ ?_ }
      rw [hc]
      cases awaited with
      | none => cases hc'
      | some chunkId => exact hc'

/-- A step posts the next chunk or none. -/
theorem next_reading (h : Opened l s) {pageSize : ℕ} {c : Choice}
    (hnext : s.next pageSize c = some s') : s'.chunkReading = s.chunkReading ∨
      s'.chunkReading = s.chunkReading + 1 ∧ s'.chunkRead ≤ s.chunkReading := by
  rcases h.next_cases hnext with hm | ⟨e, -, rfl⟩
  · cases hm with
    | post => exact .inr ⟨rfl, h.readAtPost_le⟩
    | postAwaited => exact .inr ⟨rfl, h.readAtPost_le⟩
    | _ => exact .inl rfl
  · exact .inl rfl

theorem run_move (h : Opened l s) (hm : Move s s') : Run (next l.pageSize) s s' := by
  obtain ⟨c, -, hnext⟩ := h.move_next l.pageSize hm
  exact Run.of_next hnext

/-! ### Rounds: a call of `try_step`, or of `step` in `wait_step`, with its polling -/

theorem run_post (h : Opened l s) (hc : s.control = .tryStep)
    (hlt : s.chunkReading < s.prefetchLimit) {r : ℤ} (hlo : s.readAtPost ≤ r)
    (hhi : r ≤ s.chunkReading + 1) :
    Run (next l.pageSize) s { s.posted with chunkRead := r, control := .run } := by
  have hm := Move.post hc hlt
  have hpoll := Move.poll (s := { s.posted with control := .poll none }) r rfl hlo hhi
  exact (h.run_move hm).trans ((h.move hm).run_move hpoll)

theorem run_postAwaited (h : Opened l s) {chunkId : ℤ} (hc : s.control = .waitStep chunkId)
    (hread : s.chunkRead < chunkId) (hlt : s.chunkReading < s.prefetchLimit) {r : ℤ}
    (hlo : s.readAtPost ≤ r) (hhi : r ≤ s.chunkReading + 1) :
    Run (next l.pageSize) s { s.posted with chunkRead := r, control := .waitStep chunkId } := by
  have hm := Move.postAwaited hc hread hlt
  have hpoll := Move.poll (s := { s.posted with control := .poll (some chunkId) }) r rfl hlo hhi
  exact (h.run_move hm).trans ((h.move hm).run_move hpoll)

theorem run_idle (h : Opened l s) (hc : s.control = .tryStep)
    (hge : s.prefetchLimit ≤ s.chunkReading) {r : ℤ} (hlo : s.chunkRead ≤ r)
    (hhi : r ≤ s.chunkReading) :
    Run (next l.pageSize) s { s with chunkRead := r, control := .run } := by
  have hm := Move.idle hc hge
  have hpoll := Move.poll (s := { s with control := .poll none }) r rfl hlo hhi
  exact (h.run_move hm).trans ((h.move hm).run_move hpoll)

theorem fail (h : Opened l s) (e : LoaderError) : Opened l { s with control := .failed e } :=
  { h with awaits := fun _ hc => by cases hc }

theorem step (h : Opened l s) {pageSize : ℕ} (hstep : Step (next pageSize) s s') : Opened l s' := by
  obtain ⟨c, hnext⟩ := hstep
  rcases h.next_cases hnext with hm | ⟨e, -, rfl⟩
  · exact h.move hm
  · exact h.fail e

end Opened

/-! ## Runs of a load -/

end Loader

/-- `OPEN`, requests for tensors in any order, and `CLOSE`. -/
def Load.script (gets : List ℕ) : List Request := gets.map .getTensorPtr ++ [.close]

/-- The loader in front of the requests of a load. -/
def Load.start (l : Load) (gets : List ℕ) : Loader :=
  Loader.create (.open l.args :: Load.script gets)

/-- The loader when `OPEN` has been served. -/
def Load.opened (l : Load) (gets : List ℕ) : Loader :=
  { Loader.create (Load.script gets) with
    tensors := l.layout.tensors
    chunks := l.layout.chunks
    ioDepth := l.args.ioDepth
    control := .tryStep }

namespace Load

variable {l : Load} {gets : List ℕ} {s : Loader}

theorem next_start (l : Load) (gets : List ℕ) (c : Choice) :
    (l.start gets).next l.pageSize c = some (l.opened gets) := by
  have hlayout : computeLayout (initBuffer l.pageSize l.args) l.args.tensorOffsets
      = .ok l.layout := l.computeLayout_eq
  simp [start, Loader.create, Loader.next, Loader.move, Loader.canStep, Loader.dispatch,
    Loader.open, hlayout, opened]

theorem opened_opened (l : Load) (gets : List ℕ) : Loader.Opened l (l.opened gets) := by
  obtain ⟨last, hlast, -⟩ := l.layout_sound.final
  obtain ⟨tensor, hfirst⟩ : ∃ tensor, l.layout.tensors[0]? = some tensor :=
    ⟨_, List.getElem?_eq_getElem (List.length_pos_of_mem hlast)⟩
  refine {
    tensors := rfl
    chunks := rfl
    ioDepth := rfl
    queue := ?_
    current := List.length_pos_of_mem hlast
    read_ge := Int.le_refl _
    read_le := Int.le_refl _
    reading_le := ?_
    awaits := fun _ hc => by cases hc }
  · intro m hm args
    rcases List.mem_append.mp hm with hm | hm
    · obtain ⟨index, -, rfl⟩ := List.mem_map.mp hm
      exact Request.noConfusion
    · rw [List.mem_singleton.mp hm]
      exact Request.noConfusion
  · simp only [opened, Loader.create, Loader.prefetchLimit, hfirst]
    exact l.layout_sound.prefetch_ge tensor (List.mem_of_getElem? hfirst)

/-- A run is at its start or has served `OPEN`. -/
theorem run_start (h : Run (Loader.next l.pageSize) (l.start gets) s) :
    s = l.start gets ∨ Run (Loader.next l.pageSize) (l.opened gets) s := by
  rcases Relation.ReflTransGen.cases_head h with rfl | ⟨s₁, ⟨c, hc⟩, hrest⟩
  · exact .inl rfl
  · rw [l.next_start gets c, Option.some.injEq] at hc
    exact .inr (hc ▸ hrest)

/-- What holds when `OPEN` has been served, is kept by the moves and survives the end of the
thread, holds from then on. -/
theorem run_invariant {P : Loader → Prop}
    (hmove : ∀ s s', Loader.Opened l s → P s → Loader.Move s s' → P s')
    (hfail : ∀ s handles e, Loader.Opened l s → P s → Loader.Fails handles s e →
      P { s with control := .failed e })
    {s₀ : Loader} (hopened : Loader.Opened l s₀) (hP : P s₀)
    (h : Run (Loader.next l.pageSize) s₀ s) : Loader.Opened l s ∧ P s := by
  refine Run.invariant (P := fun s => Loader.Opened l s ∧ P s) ?_ h ⟨hopened, hP⟩
  rintro s s' ⟨ho, hP⟩ hstep
  refine ⟨ho.step hstep, ?_⟩
  obtain ⟨c, hnext⟩ := hstep
  rcases ho.next_cases hnext with hm | ⟨e, he, rfl⟩
  · exact hmove s s' ho hP hm
  · exact hfail s c.handles e ho hP he

theorem run_opened {s₀ : Loader} (hopened : Loader.Opened l s₀)
    (h : Run (Loader.next l.pageSize) s₀ s) : Loader.Opened l s :=
  Run.invariant (fun _ _ ho hstep => ho.step hstep) h hopened

/-- A tensor has been handed out with its last chunk reaped. -/
theorem run_gave (h : Run (Loader.next l.pageSize) (l.opened gets) s) :
    ∀ index, .gave index ∈ s.log → ∀ tensor, l.layout.tensors[index]? = some tensor →
      tensor.lastChunkId ≤ s.chunkRead := by
  refine (run_invariant (P := fun s => ∀ index, .gave index ∈ s.log →
    ∀ tensor, l.layout.tensors[index]? = some tensor → tensor.lastChunkId ≤ s.chunkRead) ?_ ?_
    (l.opened_opened gets) (fun _ hmem => absurd hmem List.not_mem_nil) h).2
  · intro s s' ho hP hm
    have hold : ∀ index, .gave index ∈ s.log → ∀ tensor, l.layout.tensors[index]? = some tensor →
        tensor.lastChunkId ≤ s'.chunkRead := fun index hmem tensor htensor =>
      Int.le_trans (hP index hmem tensor htensor) hm.reads.2
    intro index hmem tensor htensor
    cases hm with
    | give hc hread =>
        rcases List.mem_cons.mp hmem with heq | hmem
        · cases heq
          obtain ⟨current, -, hget, -, hlast⟩ := ho.currentTensor
          rw [ho.tensors] at hget
          cases htensor.symm.trans hget
          have hid := ho.awaits _ (by rw [hc]; rfl)
          exact hlast ▸ hid ▸ hread
        · exact hold index hmem tensor htensor
    | post | postAwaited | close =>
        rcases List.mem_cons.mp hmem with heq | hmem
        · cases heq
        · exact hold index hmem tensor htensor
    | _ => exact hold index hmem tensor htensor
  · intro s handles e _ hP _
    exact hP

/-- The thread never ends in one of the internal errors of `can_step`, nor past the chunks. -/
theorem run_error (h : Run (Loader.next l.pageSize) (l.opened gets) s) {e : LoaderError}
    (he : s.control = .failed e) :
    e = .indexOutOfRange ∨ e = .outOfOrder ∨ e = .chunkIdOutOfRange ∨ ∃ j, e = .chunkFailed j := by
  refine (run_invariant (P := fun s => ∀ e, s.control = .failed e → e = .indexOutOfRange ∨
    e = .outOfOrder ∨ e = .chunkIdOutOfRange ∨ ∃ j, e = .chunkFailed j) ?_ ?_
    (l.opened_opened gets) (fun _ he => by cases he) h).2 e he
  · intro s s' ho hP hm e he
    cases hm with
    | @poll awaited r hc => cases awaited <;> cases he
    | reap hc => exact hP e he
    | _ => cases he
  · intro s handles e ho hP hfails e' he'
    cases he'
    cases hfails with
    | indexOutOfRange => exact .inl rfl
    | outOfOrder => exact .inr (.inl rfl)
    | chunkIdOutOfRange => exact .inr (.inr (.inl rfl))
    | chunkFailed => exact .inr (.inr (.inr ⟨_, rfl⟩))

end Load

end InstantTensor
