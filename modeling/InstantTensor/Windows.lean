/-
# `InstantTensor.Windows` — chunks in flight have windows of their own

The host buffer, the CUDA events and the control blocks of AIO are divided into `io_depth`
windows, and chunk `c` uses window `c % io_depth`.  Nothing locks a window: a chunk may use it
because the chunk `io_depth` places before has been reaped.  The same wait, with
`MAX_PREFETCH_CHUNKS` in place of `io_depth`, keeps the loader thread from filling the queues of
`wait_thread`, to which it submits and from which it alone reaps.

To say so the calls that the loader thread makes on `wait_thread` are written down in the order
they are made (`Traced`): `Loader.calls` follows the code of `InstantTensor.Loader` branch by
branch.  What is proved of every run is `Load.slots_apart`; the step lemma is `Windowed.step`.
-/
import InstantTensor.InFlight
import InstantTensor.Slices

namespace InstantTensor

/-- What the loader thread does to `wait_thread`. -/
inductive WaitCall where
  | submit (chunkId : ℤ)
  | reap (chunkId : ℤ)
deriving DecidableEq, Repr

/-- The chunks whose task is submitted by these calls, in order. -/
def submitted (calls : List WaitCall) : List ℤ :=
  calls.filterMap fun
    | .submit chunkId => some chunkId
    | .reap _ => none

/-- The chunks whose handle is reaped by these calls, in order. -/
def reaped (calls : List WaitCall) : List ℤ :=
  calls.filterMap fun
    | .submit _ => none
    | .reap chunkId => some chunkId

theorem submitted_append (calls calls' : List WaitCall) :
    submitted (calls ++ calls') = submitted calls ++ submitted calls' :=
  List.filterMap_append

theorem reaped_append (calls calls' : List WaitCall) :
    reaped (calls ++ calls') = reaped calls ++ reaped calls' :=
  List.filterMap_append

theorem mem_submitted {calls : List WaitCall} {c : ℤ} :
    c ∈ submitted calls ↔ .submit c ∈ calls := by
  induction calls with
  | nil => simp [submitted]
  | cons call calls ih =>
      rw [← List.singleton_append, submitted_append, List.mem_append, List.mem_append, ih]
      cases call <;> simp [submitted]

theorem mem_reaped {calls : List WaitCall} {c : ℤ} : c ∈ reaped calls ↔ .reap c ∈ calls := by
  induction calls with
  | nil => simp [reaped]
  | cons call calls ih =>
      rw [← List.singleton_append, reaped_append, List.mem_append, List.mem_append, ih]
      cases call <;> simp [reaped]

/-! ## The calls of a move -/

namespace Loader

section
variable (handles : ℤ → Reap)

/-- What a loop of `poll_read_chunk` or `wait_read_chunk` reaps, for `n` more handles from `next`
on: those in front of the first one that is not done. -/
def reapCalls : ℕ → ℤ → List WaitCall
  | 0, _ => []
  | n + 1, next =>
      match handles next with
      | .done => .reap next :: reapCalls n (next + 1)
      | _ => []

def pollCalls (s : Loader) : List WaitCall :=
  reapCalls handles (s.chunkReading - s.chunkRead).toNat (s.chunkRead + 1)

def waitCalls (chunkId : ℤ) (s : Loader) : List WaitCall :=
  reapCalls handles (chunkId - s.chunkRead).toNat (s.chunkRead + 1)

/-- `post_read_chunk`: the wait for its window, and what the backend submits last. -/
def postCalls (s : Loader) : List WaitCall :=
  let chunkId := s.chunkReading + 1
  let waitChunkId := max (chunkId - maxPrefetchChunks) (chunkId - s.ioDepth)
  (if 0 ≤ waitChunkId then waitCalls handles waitChunkId s else []) ++ [.submit chunkId]

end

/-- The calls of a move that returns. -/
def calls (c : Choice) (s : Loader) : List WaitCall :=
  match s.control with
  | .tryStep =>
      match s.canStep with
      | .ok true => postCalls c.handles s
      | _ => []
  | .waitStep chunkId =>
      if s.chunkRead < chunkId then
        match s.canStep with
        | .ok true => postCalls c.handles s
        | _ => waitCalls c.handles chunkId s
      else []
  | .poll _ => pollCalls c.handles s
  | .run | .returned | .failed _ => []

end Loader

/-- The loader thread with all its calls on `wait_thread`, oldest first. -/
structure Traced where
  loader : Loader
  calls : List WaitCall

/-- A move of the thread.  With an exception the process ends, and its calls are not followed
any further. -/
def Traced.next (pageSize : ℕ) (c : Choice) (t : Traced) : Option Traced :=
  match t.loader.move pageSize c with
  | .ok loader => some { loader, calls := t.calls ++ t.loader.calls c }
  | .error .blocked => none
  | .error (.raised error) => some { t with loader := { t.loader with control := .failed error } }

namespace Loader

variable {handles : ℤ → Reap} {l : Load} {s s' : Loader}

/-- The handles of the chunks behind `lo` up to `hi`, reaped in order. -/
def reaps (lo hi : ℤ) : List WaitCall :=
  (List.range (hi - lo).toNat).map fun i : ℕ => .reap (lo + 1 + i)

theorem reaps_self (lo : ℤ) : reaps lo lo = [] := by
  simp [reaps]

theorem reaps_head {lo hi : ℤ} (h : lo < hi) : reaps lo hi = .reap (lo + 1) :: reaps (lo + 1) hi := by
  unfold reaps
  rw [show (hi - lo).toNat = (hi - (lo + 1)).toNat + 1 by omega, List.range_succ_eq_map,
    List.map_cons, List.map_map]
  refine congrArg₂ List.cons (by simp) (List.map_congr_left fun i _ => ?_)
  simp only [Function.comp, Nat.cast_succ]
  congr 1
  omega

theorem reapCalls_done (n : ℕ) {first : ℤ}
    (h : ∀ j, first ≤ j → j < first + n → handles j = .done) :
    reapCalls handles n first = reaps (first - 1) (first - 1 + n) := by
  induction n generalizing first with
  | zero => simp [reapCalls, reaps]
  | succ n ih =>
      rw [reapCalls, h first (Int.le_refl _) (by omega), reaps_head (by omega)]
      simp only
      rw [ih fun j hlo hhi => h j (by omega) (by push_cast; omega)]
      rw [Int.sub_add_cancel, Int.add_sub_cancel]
      congr 2
      push_cast
      omega

theorem reapCalls_poll (n : ℕ) {first next : ℤ} (h : pollLoop handles n first = .ok next) :
    reapCalls handles n first = reaps (first - 1) (next - 1) := by
  induction n generalizing first with
  | zero =>
      cases h
      rw [reaps_self, reapCalls]
  | succ n ih =>
      rw [pollLoop] at h
      rw [reapCalls]
      cases hfirst : handles first with
      | pending =>
          simp only [hfirst, Except.ok.injEq] at h ⊢
          rw [h, reaps_self]
      | raised => simp [hfirst] at h
      | done =>
          simp only [hfirst] at h ⊢
          obtain ⟨hle, -, -⟩ := pollLoop_ok h
          rw [ih h, reaps_head (show first - 1 < next - 1 by omega), Int.sub_add_cancel, Int.add_sub_cancel]

/-- The wait for a chunk that has to be reaped. -/
theorem waitCalls_done {chunkId : ℤ} (hlt : s.chunkRead ≤ chunkId)
    (h : ∀ j, s.chunkRead < j → j ≤ chunkId → handles j = .done) :
    waitCalls handles chunkId s = reaps s.chunkRead chunkId := by
  rw [waitCalls, reapCalls_done _ fun j hlo hhi => h j (by omega) (by omega)]
  congr 1 <;> omega

theorem postCalls_done (hge : -1 ≤ s.chunkRead)
    (h : ∀ j, s.chunkRead < j → j ≤ s.readAtPost → handles j = .done) :
    postCalls handles s = reaps s.chunkRead s.readAtPost ++ [.submit (s.chunkReading + 1)] := by
  have hwait : max (s.chunkReading + 1 - maxPrefetchChunks) (s.chunkReading + 1 - s.ioDepth)
      = s.chunkReading + 1 - s.window := by
    unfold window
    omega
  unfold postCalls
  simp only [hwait]
  congr 1
  unfold readAtPost at h ⊢
  by_cases hread : s.chunkRead < s.chunkReading + 1 - s.window
  · rw [max_eq_right (le_of_lt hread)] at h ⊢
    rw [if_pos (by omega), waitCalls_done (le_of_lt hread) h]
  · rw [max_eq_left (not_lt.mp hread), reaps_self]
    split
    · rw [waitCalls, show (s.chunkReading + 1 - s.window - s.chunkRead).toNat = 0 by omega, reapCalls]
    · rfl

/-- A move reaps the handles from the last reaped chunk on, in order, and then may submit the
next chunk. -/
theorem Opened.calls_eq (ho : Opened l s) {pageSize : ℕ} {c : Choice}
    (hm : s.move pageSize c = .ok s') :
    s.calls c = reaps s.chunkRead s'.chunkRead ∧ s'.chunkReading = s.chunkReading ∨
      s.calls c = reaps s.chunkRead s'.chunkRead ++ [.submit (s.chunkReading + 1)] ∧
        s'.chunkReading = s.chunkReading + 1 ∧ s'.chunkReading - s'.chunkRead ≤ s.window := by
  obtain ⟨hmove, hreaped⟩ := ho.move_ok hm
  have hposts : s.readAtPost = max s.chunkRead (s.chunkReading + 1 - s.window) := rfl
  cases hmove with
  | leave hc | get hc | close hc | background hc =>
      left
      exact ⟨by rw [calls, hc, reaps_self], rfl⟩
  | post hc hlt =>
      right
      refine ⟨?_, rfl, ?_⟩
      · rw [calls, hc, ho.canStep_eq, decide_eq_true hlt]
        exact postCalls_done ho.read_ge hreaped
      · simp only [posted]
        omega
  | postAwaited hc hread hlt =>
      right
      refine ⟨?_, rfl, ?_⟩
      · rw [calls, hc, ho.canStep_eq, decide_eq_true hlt]
        simp only [if_pos hread]
        exact postCalls_done ho.read_ge hreaped
      · simp only [posted]
        omega
  | idle hc hge =>
      left
      refine ⟨?_, rfl⟩
      rw [calls, hc, ho.canStep_eq, decide_eq_false (not_lt.mpr hge), reaps_self]
  | reap hc hread hge =>
      left
      refine ⟨?_, rfl⟩
      rw [calls, hc, ho.canStep_eq, decide_eq_false (not_lt.mpr hge)]
      simp only [if_pos hread]
      exact waitCalls_done (le_of_lt hread) hreaped
  | give hc hread =>
      left
      refine ⟨?_, rfl⟩
      rw [calls, hc]
      simp only [if_neg (not_lt.mpr hread), reaps_self]
  | poll r hc =>
      left
      refine ⟨?_, rfl⟩
      rw [Loader.move, hc] at hm
      obtain ⟨s₁, hpoll, hm⟩ := bind_ok hm
      obtain ⟨next, hloop, hpoll⟩ := bind_ok hpoll
      cases hpoll
      have hr : next - 1 = r := congrArg Loader.chunkRead (Except.ok.inj hm)
      rw [calls, hc, pollCalls, reapCalls_poll _ hloop, hr, Int.add_sub_cancel]

end Loader

/-! ## Runs -/

/-- The chunks from 0 up to `n`. -/
def chunksUpTo (n : ℤ) : List ℤ := (List.range (n + 1).toNat).map Nat.cast

theorem mem_chunksUpTo {n c : ℤ} : c ∈ chunksUpTo n ↔ 0 ≤ c ∧ c ≤ n := by
  unfold chunksUpTo
  rw [List.mem_map]
  constructor
  · rintro ⟨i, hi, rfl⟩
    have := List.mem_range.mp hi
    omega
  · rintro ⟨hlo, hhi⟩
    exact ⟨c.toNat, List.mem_range.mpr (by omega), by omega⟩

theorem chunksUpTo_succ {n : ℤ} (hn : -1 ≤ n) : chunksUpTo (n + 1) = chunksUpTo n ++ [n + 1] := by
  unfold chunksUpTo
  rw [show (n + 1 + 1).toNat = (n + 1).toNat + 1 by omega, List.range_succ, List.map_append,
    List.map_singleton]
  congr 2
  omega

theorem submitted_reaps (lo hi : ℤ) : submitted (Loader.reaps lo hi) = [] := by
  refine List.filterMap_eq_nil_iff.mpr fun call hcall => ?_
  obtain ⟨i, -, rfl⟩ := List.mem_map.mp hcall
  rfl

theorem reaps_concat {lo hi : ℤ} (hle : lo ≤ hi) :
    Loader.reaps lo (hi + 1) = Loader.reaps lo hi ++ [.reap (hi + 1)] := by
  unfold Loader.reaps
  rw [show (hi + 1 - lo).toNat = (hi - lo).toNat + 1 by omega, List.range_succ, List.map_append,
    List.map_singleton]
  congr 3
  omega

theorem chunksUpTo_reaps {lo : ℤ} (hlo : -1 ≤ lo) {hi : ℤ} (hle : lo ≤ hi) :
    chunksUpTo lo ++ reaped (Loader.reaps lo hi) = chunksUpTo hi := by
  induction hi, hle using Int.leInduction with
  | base => rw [Loader.reaps_self, reaped, List.filterMap_nil, List.append_nil]
  | succ hi hle ih =>
      rw [reaps_concat hle, reaped_append, ← List.append_assoc, ih, chunksUpTo_succ (by omega)]
      rfl

theorem length_chunksUpTo {n : ℤ} (hn : -1 ≤ n) : ((chunksUpTo n).length : ℤ) = n + 1 := by
  rw [chunksUpTo, List.length_map, List.length_range]
  omega

/-- Whenever a task is submitted, fewer than `w` are outstanding. -/
def Spaced (w : ℤ) (calls : List WaitCall) : Prop :=
  ∀ calls' chunkId, calls' ++ [.submit chunkId] <+: calls →
    ((submitted calls').length : ℤ) < (reaped calls').length + w

namespace Spaced

variable {w : ℤ} {calls : List WaitCall}

theorem reap (h : Spaced w calls) (chunkId : ℤ) : Spaced w (calls ++ [.reap chunkId]) := by
  intro calls' c hprefix
  rcases List.prefix_concat_iff.mp hprefix with heq | hprefix
  · simp at heq
  · exact h calls' c hprefix

theorem submit (h : Spaced w calls) (chunkId : ℤ)
    (hroom : ((submitted calls).length : ℤ) < (reaped calls).length + w) :
    Spaced w (calls ++ [.submit chunkId]) := by
  intro calls' c hprefix
  rcases List.prefix_concat_iff.mp hprefix with heq | hprefix
  · obtain ⟨rfl, -⟩ := List.append_inj' heq rfl
    exact hroom
  · exact h calls' c hprefix

theorem reaps (h : Spaced w calls) {lo hi : ℤ} (hle : lo ≤ hi) :
    Spaced w (calls ++ Loader.reaps lo hi) := by
  induction hi, hle using Int.leInduction with
  | base => rwa [Loader.reaps_self, List.append_nil]
  | succ hi hle ih =>
      rw [reaps_concat hle, ← List.append_assoc]
      exact ih.reap _

end Spaced

/-- The invariant of a run: what has been submitted and what has been reaped, and how much was
outstanding whenever a task was submitted. -/
structure Windowed (l : Load) (t : Traced) : Prop where
  submits : submitted t.calls = chunksUpTo t.loader.chunkReading
  reaps : reaped t.calls = chunksUpTo t.loader.chunkRead
  outstanding : t.loader.chunkReading - t.loader.chunkRead ≤ l.window
  spaced : Spaced l.window t.calls

theorem Windowed.move {l : Load} {t : Traced} {s : Loader} (h : Windowed l t)
    (ho : Loader.Opened l t.loader) {pageSize : ℕ} {c : Choice}
    (hm : t.loader.move pageSize c = .ok s) :
    Windowed l { loader := s, calls := t.calls ++ t.loader.calls c } := by
  have hread := (ho.move_ok hm).1.reads.2
  have hge := ho.read_ge
  have hle := ho.read_le
  have hreaped : reaped t.calls ++ reaped (Loader.reaps t.loader.chunkRead s.chunkRead)
      = chunksUpTo s.chunkRead := by
    rw [h.reaps, chunksUpTo_reaps hge hread]
  rcases ho.calls_eq hm with ⟨hcalls, hreading⟩ | ⟨hcalls, hreading, hwindow⟩
  · have hout := h.outstanding
    refine ⟨?_, ?_, by simp only; omega, hcalls ▸ h.spaced.reaps hread⟩
    · rw [hcalls, submitted_append, submitted_reaps, List.append_nil, h.submits, hreading]
    · rw [hcalls, reaped_append, hreaped]
  · rw [ho.window_eq] at hwindow
    have hsubmits : submitted (t.calls ++ Loader.reaps t.loader.chunkRead s.chunkRead)
        = chunksUpTo t.loader.chunkReading := by
      rw [submitted_append, submitted_reaps, List.append_nil, h.submits]
    refine ⟨?_, ?_, hwindow, ?_⟩
    · rw [hcalls, ← List.append_assoc, submitted_append, hsubmits, hreading,
        chunksUpTo_succ (by omega)]
      rfl
    · rw [hcalls, ← List.append_assoc, reaped_append, reaped_append, hreaped]
      exact List.append_nil _
    · rw [hcalls, ← List.append_assoc]
      refine (h.spaced.reaps hread).submit _ ?_
      rw [hsubmits, reaped_append, hreaped, length_chunksUpTo (by omega),
        length_chunksUpTo (by omega)]
      omega

/-- The traced thread makes the moves of the thread. -/
theorem Traced.next_loader (pageSize : ℕ) (c : Choice) (t : Traced) :
    (t.next pageSize c).map Traced.loader = t.loader.next pageSize c := by
  unfold Traced.next Loader.next
  cases t.loader.move pageSize c with
  | ok s => rfl
  | error e =>
      cases e with
      | blocked => rfl
      | raised error => rfl

namespace Load

variable {l : Load} {gets : List ℕ} {t : Traced}

/-- The loader in front of the requests of a load, with no call made. -/
def traced (l : Load) (gets : List ℕ) : Traced := { loader := l.start gets, calls := [] }

theorem window_pos (l : Load) : 0 < l.window := by
  have := l.admitted.ioDepth_pos
  unfold window maxPrefetchChunks
  omega

/-- Serving `OPEN` takes no call on `wait_thread`. -/
theorem traced_next {c : Choice} (hnext : (l.traced gets).next l.pageSize c = some t) :
    t = { loader := l.opened gets, calls := [] } := by
  have hloader := Traced.next_loader l.pageSize c (l.traced gets)
  rw [hnext, traced, l.next_start, Option.map_some, Option.some.injEq] at hloader
  unfold Traced.next at hnext
  split at hnext
  · cases hnext
    exact congrArg (Traced.mk · []) hloader
  · cases hnext
  · cases hnext
    exact absurd (congrArg Loader.control hloader) Control.noConfusion

theorem run_windowed (h : Run (Traced.next l.pageSize) (l.traced gets) t) :
    (t = l.traced gets ∨ Loader.Opened l t.loader) ∧ Windowed l t := by
  have hwindow := l.window_pos
  refine Run.invariant (P := fun t => (t = l.traced gets ∨ Loader.Opened l t.loader) ∧
    Windowed l t) ?_ h ⟨.inl rfl, ?_⟩
  · rintro t t' ⟨hstart, hw⟩ ⟨c, hnext⟩
    rcases hstart with rfl | ho
    · rw [traced_next hnext]
      exact ⟨.inr (l.opened_opened gets), { hw with }⟩
    · have hloader : t.loader.next l.pageSize c = some t'.loader := by
        rw [← Traced.next_loader, hnext, Option.map_some]
      refine ⟨.inr (ho.step ⟨c, hloader⟩), ?_⟩
      unfold Traced.next at hnext
      split at hnext
      · next hm =>
        cases hnext
        exact hw.move ho hm
      · cases hnext
      · cases hnext
        exact { hw with }
  · exact ⟨rfl, rfl, by simp only [traced, start, Loader.create]; omega,
      fun _ _ hprefix => by simp [traced] at hprefix⟩

end Load

/-! ## Windows -/

/-- Numbers less than `depth` apart have different remainders. -/
theorem mod_ne_of_near {a b depth : ℕ} (hlt : a < b) (hnear : b < a + depth) :
    a % depth ≠ b % depth := by
  intro h
  have hdvd : depth ∣ b - a := Nat.dvd_of_mod_eq_zero (Nat.sub_mod_eq_zero_of_mod_eq h.symm)
  have := Nat.le_of_dvd (by omega) hdvd
  omega

/-- What the two chunks of `p` and `p'` use while they are in flight: their windows, with their
parts of the host buffer and their `num_threads` control blocks each. -/
structure ChunkIOParams.Apart (g : Geometry) (numThreads : ℕ) (p p' : ChunkIOParams) : Prop where
  window : p.windowIdx ≠ p'.windowIdx
  host : ¬ Meets p.windowOffset (p.windowOffset + g.rankChunkSize)
    p'.windowOffset (p'.windowOffset + g.rankChunkSize)
  slots : ∀ i < numThreads, ∀ i' < numThreads,
    p.windowIdx * numThreads + i ≠ p'.windowIdx * numThreads + i'

theorem ChunkIOParams.Apart.of_window {g : Geometry} {args : OpenArgs} {c c' : ℤ}
    {chunk chunk' : Chunk}
    (h : (chunkIOParams g args c chunk).windowIdx ≠ (chunkIOParams g args c' chunk').windowIdx) :
    (chunkIOParams g args c chunk).Apart g args.numThreads (chunkIOParams g args c' chunk') := by
  refine ⟨h, ?_, ?_⟩
  · rw [meets_iff]
    rintro ⟨a, hlo, hhi, hlo', hhi'⟩
    refine h ?_
    change (c.toNat % args.ioDepth) * g.rankChunkSize ≤ a at hlo
    change a < (c.toNat % args.ioDepth) * g.rankChunkSize + g.rankChunkSize at hhi
    change (c'.toNat % args.ioDepth) * g.rankChunkSize ≤ a at hlo'
    change a < (c'.toNat % args.ioDepth) * g.rankChunkSize + g.rankChunkSize at hhi'
    rw [← Nat.succ_mul] at hhi hhi'
    exact (Nat.div_eq_of_lt_le hlo hhi).symm.trans (Nat.div_eq_of_lt_le hlo' hhi')
  · intro i hi i' hi' heq
    have hpos : 0 < args.numThreads := Nat.lt_of_le_of_lt (Nat.zero_le i) hi
    refine h ?_
    have hdiv := congrArg (· / args.numThreads) heq
    simp only [Nat.mul_comm _ args.numThreads, Nat.mul_add_div hpos, Nat.div_eq_of_lt hi,
      Nat.div_eq_of_lt hi', Nat.add_zero] at hdiv
    exact hdiv

/-- **Chunks in flight are those between the two counters, no more than there are windows, and no
two of them share a window; handles are reaped one after the other, and the queues of
`wait_thread` are never full when the loader thread submits.** -/
theorem Load.slots_apart (l : Load) (gets : List ℕ) {t : Traced}
    (h : Run (Traced.next l.pageSize) (l.traced gets) t) :
    (∀ c, .submit c ∈ t.calls ∧ .reap c ∉ t.calls
      ↔ t.loader.chunkRead < c ∧ c ≤ t.loader.chunkReading) ∧
    t.loader.chunkReading - t.loader.chunkRead ≤ min (maxPrefetchChunks : ℤ) l.args.ioDepth ∧
    (∀ c c' chunk chunk', t.loader.chunkRead < c → c < c' → c' ≤ t.loader.chunkReading →
      (chunkIOParams l.geometry l.args c chunk).Apart l.geometry l.args.numThreads
        (chunkIOParams l.geometry l.args c' chunk')) ∧
    reaped t.calls = chunksUpTo t.loader.chunkRead ∧
    Spaced maxPrefetchChunks t.calls := by
  obtain ⟨hstart, hw⟩ := Load.run_windowed h
  have hge : -1 ≤ t.loader.chunkRead := by
    rcases hstart with rfl | ho
    · exact Int.le_refl _
    · exact ho.read_ge
  have hwindow : l.window = min (maxPrefetchChunks : ℤ) l.args.ioDepth := rfl
  refine ⟨fun c => ?_, hw.outstanding, ?_, hw.reaps, ?_⟩
  · rw [← mem_submitted, ← mem_reaped, hw.submits, hw.reaps, mem_chunksUpTo, mem_chunksUpTo]
    omega
  · intro c c' chunk chunk' hread hlt hreading
    have hout := hw.outstanding
    refine .of_window (mod_ne_of_near ?_ ?_)
    · omega
    · omega
  · intro calls' chunkId hprefix
    have := hw.spaced calls' chunkId hprefix
    omega

/-- `twoLaps` with a window of two chunks: three have been posted and the first one reaped. -/
theorem slots_apart_twoLaps : ∃ t : Traced,
    t.calls = [.submit 0, .submit 1, .reap 0, .submit 2] ∧
      reaped t.calls = chunksUpTo t.loader.chunkRead := by
  have hplay : (exec (Traced.next twoLaps.pageSize) [⟨true, Loader.upTo (-1)⟩, ⟨false, Loader.upTo (-1)⟩,
      ⟨false, Loader.upTo (-1)⟩, ⟨false, Loader.upTo (-1)⟩, ⟨false, Loader.upTo (-1)⟩,
      ⟨false, Loader.upTo (-1)⟩, ⟨false, Loader.upTo (-1)⟩, ⟨false, Loader.upTo 0⟩]
      (twoLaps.traced [])).any
      (fun t => decide (t.calls = [.submit 0, .submit 1, .reap 0, .submit 2])) = true := by
    decide +kernel
  obtain ⟨t, hrun, ht⟩ := Run.exists_of_exec hplay
  exact ⟨t, of_decide_eq_true ht, (twoLaps.slots_apart [] hrun).2.2.2.1⟩

end InstantTensor
