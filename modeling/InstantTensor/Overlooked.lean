/-
# `InstantTensor.Overlooked` — which results pass that should not

A tensor is to be handed out only when every read behind it has returned the bytes of its slice.
CUFILE compares the two.  URING looks for errors only, and so does AIO by what it says, but `res` of
an `io_event` is unsigned, so its test for a negative one never succeeds: a read that has failed
counts as done (`failedRead_passes`).

The results that pass are `Backend.Overlooks`.  `Load.fullReads_iff` says that these are all: in
every run a tensor in hand has the bytes of every slice for which the kernel gave no such result,
and a result that a backend turns away ends the process.
-/
import InstantTensor.RankTurns

namespace InstantTensor

/-- A result short of the slice that a task takes all the same. -/
def Backend.Overlooks (backend : Backend) (r : Read) (result : ℤ) : Prop :=
  match backend with
  | AIO | AIO_BUFFERED => result < r.size
  | URING | URING_BUFFERED => 0 ≤ result ∧ result < r.size
  | CUFILE | MMAP => False

/-- A result the backend takes has the bytes of the slice, or is overlooked. -/
theorem Backend.Supplied.full_iff {backend : Backend} {r : Read} {result : ℤ}
    (hb : backend ≠ Backend.MMAP) (h : backend.Supplied r result) :
    (r.size : ℤ) ≤ result ↔ ¬ backend.Overlooks r result := by
  cases backend with
  | AIO | AIO_BUFFERED => exact not_lt.symm
  | URING | URING_BUFFERED => exact not_lt.symm.trans (not_congr (and_iff_right h).symm)
  | CUFILE => exact iff_of_true (Int.le_of_eq h.symm) id
  | MMAP => exact absurd rfl hb

section
variable {l : Load} {gets : List ℕ}

/-- A turn adds the result it delivers, and no other. -/
theorem Pipeline.Shift.mem_results {t : Turn} {s s' : Pipeline} (h : Pipeline.Shift t s s') {r : Read}
    {result : ℤ} : (r, result) ∈ s'.results ↔ t = .complete r result ∨ (r, result) ∈ s.results := by
  cases h with
  | keep hcomplete _ _ hsame => exact (hsame.results _).trans (or_iff_right (hcomplete r result)).symm
  | close hsame => exact (hsame.results _).trans (or_iff_right Turn.noConfusion).symm
  | post _ _ _ _ _ hresults => exact (hresults _).trans (or_iff_right Turn.noConfusion).symm
  | complete _ _ _ _ _ hresults =>
      refine (hresults _).trans (or_congr_left ?_)
      rw [Prod.mk.injEq, Turn.complete.injEq]
      exact and_congr eq_comm eq_comm
  | cudaDone _ _ _ _ hresults => exact (hresults _).trans (or_iff_right Turn.noConfusion).symm
  | waitDone _ _ _ _ hresults => exact (hresults _).trans (or_iff_right Turn.noConfusion).symm

/-- The results of a process are those that its run has delivered. -/
theorem Load.mem_results_iff [IoEvent] {ts : List Turn} {s : Pipeline}
    (h : exec (Pipeline.next l.pageSize l.args) ts (l.pipeline gets) = some s) {r : Read} {result : ℤ} :
    (r, result) ∈ s.results ↔ .complete r result ∈ ts := by
  induction ts using List.reverseRecOn generalizing s with
  | nil =>
      obtain rfl := Option.some.inj h
      exact iff_of_false List.not_mem_nil List.not_mem_nil
  | append_singleton ts t ih =>
      obtain ⟨s₁, hs₁, ht⟩ := exec_concat.mp h
      have hshift := (l.run_kept (Run.of_exec hs₁)).shift ht
      rw [hshift.mem_results, ih hs₁, List.mem_append, List.mem_singleton, or_comm, eq_comm]

/-- **A tensor in hand has the bytes of a slice exactly if the kernel gave no result for it that is
overlooked**; a result the backend does not take ends the process. -/
theorem Load.fullReads_iff [IoEvent] (l : Load) (gets : List ℕ) (hb : l.args.backend ≠ Backend.MMAP)
    {ts : List Turn} {s : Pipeline}
    (h : exec (Pipeline.next l.pageSize l.args) ts (l.pipeline gets) = some s) :
    (∀ tensor, l.Gave s tensor → ∀ c : ℕ, (c : ℤ) ≤ tensor.lastChunkId → ∀ r ∈ l.reads c,
      (∃ result, .complete r result ∈ ts) ∧
        ∀ result, .complete r result ∈ ts →
          ((r.size : ℤ) ≤ result ↔ ¬ l.args.backend.Overlooks r result)) ∧
    ∀ r result, .complete r result ∈ ts → ¬ l.args.backend.Supplied r result →
      Inevitable (Pipeline.next l.pageSize l.args) Pipeline.Turn.Inner
        (fun s => s.aborted.isSome = true) s := by
  obtain ⟨hgiven, hrejected⟩ := l.pointer_after_reads gets (Run.of_exec h)
  constructor
  · intro tensor hgave c hc r hr
    obtain ⟨⟨result, hresult⟩, hsupplied⟩ := hgiven tensor hgave c hc r hr
    refine ⟨⟨result, (Load.mem_results_iff h).mp hresult⟩, ?_⟩
    intro result hresult
    exact (hsupplied result ((Load.mem_results_iff h).mpr hresult)).full_iff hb
  · intro r result hresult
    exact hrejected (r, result) ((Load.mem_results_iff h).mpr hresult)

end

/-! ## A read that fails -/

/-- A tensor of 8000 bytes behind a header of 100, read by AIO in one chunk of two slices. -/
def twoSlices : Load := Load.of 4096 {
    rank := 0
    worldSize := 1
    bufferSize := 8000
    chunkSize := 4096
    numThreads := 2
    ioDepth := 2
    backend := Backend.AIO
    tensorOffsets := [(0, 100), (0, 8100)] } (by decide)

def firstSlice : Read where
  chunkId := 0
  thread := 0
  size := 4096
  request := 4096
  fileIndex := 0
  fileOffset := 0
  bufferOffset := 0

def secondSlice : Read where
  chunkId := 0
  thread := 1
  size := 4004
  request := 4096
  fileIndex := 0
  fileOffset := 4096
  bufferOffset := 4096

/-- The chunk is posted, its slices return `result` and `result'`, and the tensor is handed out. -/
def sliceTurns (result result' : ℤ) : List Turn :=
  [.loader true, .loader true, .hand, .lastPage 2, .lastPageDone, .complete secondSlice result',
    .complete firstSlice result, .loader true, .take 2, .cudaDone, .waitDone, .loader true,
    .loader true, .loader true]

theorem twoSlices_reads : twoSlices.reads 0 = [firstSlice, secondSlice] := by decide +kernel

theorem twoSlices_gives (result result' : ℤ)
    (h : (exec (Pipeline.next twoSlices.pageSize twoSlices.args) (sliceTurns result result')
      (twoSlices.pipeline [0])).any (fun s => decide (.gave 0 ∈ s.loader.log)) = true) :
    ∃ s tensor, exec (Pipeline.next twoSlices.pageSize twoSlices.args) (sliceTurns result result')
      (twoSlices.pipeline [0]) = some s ∧ twoSlices.Gave s tensor ∧ tensor.lastChunkId = 0 := by
  obtain ⟨s, hs, hlog⟩ := (Option.any_eq_true _ _).mp h
  have htensor : twoSlices.layout.tensors[0]?.any (fun t => t.lastChunkId == 0) = true := by
    decide +kernel
  obtain ⟨tensor, hget, hlast⟩ := (Option.any_eq_true _ _).mp htensor
  exact ⟨s, tensor, hs, ⟨0, of_decide_eq_true hlog, hget⟩, by simpa using hlast⟩

/-- With all bytes read the tensor is there, and the second slice, which has come first, is full. -/
theorem fullReads_twoSlices : ∃ s tensor, twoSlices.Gave s tensor ∧ tensor.lastChunkId = 0 ∧
    twoSlices.reads 0 = [firstSlice, secondSlice] ∧ (secondSlice.size : ℤ) ≤ 4004 ∧
    ¬ twoSlices.args.backend.Overlooks secondSlice 4004 := by
  obtain ⟨s, tensor, hs, hgave, hlast⟩ := twoSlices_gives 4096 4004 (by decide +kernel)
  have hiff := ((twoSlices.fullReads_iff [0] (by decide) hs).1 tensor hgave 0 (by simp [hlast])
    secondSlice (by rw [twoSlices_reads]; decide)).2 4004 (by decide)
  exact ⟨s, tensor, hgave, hlast, twoSlices_reads, by decide, hiff.mp (by decide)⟩

/-- The second slice fails with `-EIO`, and the tensor is handed out. -/
theorem failedRead_passes :
    ¬ ∀ (l : Load) (gets : List ℕ) (ts : List Turn) (s : Pipeline), l.args.backend ≠ Backend.MMAP →
      exec (Pipeline.next l.pageSize l.args) ts (l.pipeline gets) = some s →
      ∀ tensor, l.Gave s tensor → ∀ c : ℕ, (c : ℤ) ≤ tensor.lastChunkId → ∀ r ∈ l.reads c,
        ∀ result, .complete r result ∈ ts → (r.size : ℤ) ≤ result := by
  intro h
  obtain ⟨s, tensor, hs, hgave, hlast⟩ := twoSlices_gives 4096 (-5) (by decide +kernel)
  have hle := h twoSlices [0] _ s (by decide) hs tensor hgave 0 (by simp [hlast]) secondSlice
    (by rw [twoSlices_reads]; decide) (-5) (by decide)
  exact absurd hle (by decide)

end InstantTensor
