/-
# `InstantTensor.Refine` — `compute_layout` computes the plan

The simulation between the cursors of `InstantTensor.Layout` and the segments of
`InstantTensor.Plan`.  At the head of the placement loop two things are known of the
state, and each of the three lambdas is proved to keep them:

* `Ledger`: which tensors have their prefetch chunk.  The tensors of finished laps
  have their final value; of the lap before the open one, those that a chunk of
  the open lap already reaches; of the open lap, none.
* `AtPiece`: where the open chunk lies.  It is piece `q` of the open segment, all
  earlier pieces are pushed and full, and the bytes of the segment behind them are
  `currentChunkSize`.

The main result is `computeLayout_eq_settle`.  That the source's internal errors
cannot occur is part of it: the right-hand side is an `ok`.
-/
import Mathlib.Data.List.TakeWhile
import InstantTensor.Lib.Fallible
import InstantTensor.Lib.Lists
import InstantTensor.Plan

namespace InstantTensor

/-! ## The prefetch loop -/

/-- The loop hands out `id` to the longest prefix of the waiting tensors that are
`gone`. -/
theorem assignPrefetch_eq (gone : TensorMetadate → Bool) (id : ℤ) (B A C : List TensorMetadate)
    (st : LayoutState) (ht : st.tensors = A ++ (B ++ C)) (hi : st.inBufferTensorId = A.length) :
    assignPrefetch gone id B.length st =
      { st with
        tensors := A ++ ((B.takeWhile gone).map (fun t => { t with prefetchChunkId := id })
          ++ (B.dropWhile gone ++ C))
        inBufferTensorId := A.length + (B.takeWhile gone).length } := by
  induction B generalizing A st with
  | nil =>
      cases st
      simp_all [assignPrefetch]
  | cons b B ih =>
      have hget : st.tensors.getD st.inBufferTensorId default = b := by
        rw [ht, hi]
        exact getD_length_append _ _ _ A
      simp only [List.length_cons, assignPrefetch, hget]
      cases hb : gone b with
      | false =>
          cases st
          simp_all
      | true =>
          have hmod : st.tensors.modify st.inBufferTensorId
              (fun t => { t with prefetchChunkId := id })
              = (A ++ [{ b with prefetchChunkId := id }]) ++ (B ++ C) := by
            rw [ht, hi, List.cons_append, modify_length_append]
            simp
          rw [if_pos rfl, ih (A ++ [{ b with prefetchChunkId := id }])]
          · simp [hb, Nat.add_assoc, Nat.add_comm 1]
          · exact hmod
          · simp [hi]

section
variable {g : Geometry}

/-! ## Settling a tensor while its next lap is being written -/

theorem settle_append_of_gone {n : ℕ} {cs : List Chunk} {t : TensorMetadate} (c : Chunk)
    (h : ∃ c ∈ cs, t.deviceBufferOffset < c.devStop g) :
    t.settle g n (cs ++ [c]) = t.settle g n cs := by
  have hnot : ¬ ∀ c ∈ cs, (decide (c.devStop g ≤ t.deviceBufferOffset)) = true := by
    obtain ⟨c', hc', hlt⟩ := h
    intro hall
    have := of_decide_eq_true (hall c' hc')
    omega
  simp only [TensorMetadate.settle, List.takeWhile_append]
  rw [if_neg]
  intro hlen
  exact hnot (List.takeWhile_eq_self_iff.mp
    ((List.takeWhile_prefix _).eq_of_length hlen))

theorem settle_of_kept {n : ℕ} {cs : List Chunk} {t : TensorMetadate}
    (h : ∀ c ∈ cs, c.devStop g ≤ t.deviceBufferOffset) :
    t.settle g n cs = { t with prefetchChunkId := (n : ℤ) - 1 + cs.length } := by
  have : cs.takeWhile (fun c => decide (c.devStop g ≤ t.deviceBufferOffset)) = cs :=
    List.takeWhile_eq_self_iff.mpr fun c hc => decide_eq_true (h c hc)
  simp only [TensorMetadate.settle, this]

theorem settle_append_of_kept {n : ℕ} {cs : List Chunk} {t : TensorMetadate} {c : Chunk}
    (h : ∀ c ∈ cs, c.devStop g ≤ t.deviceBufferOffset)
    (hc : t.deviceBufferOffset < c.devStop g) :
    t.settle g n (cs ++ [c]) = { t with prefetchChunkId := (n : ℤ) - 1 + cs.length } := by
  have hself : cs.takeWhile (fun c => decide (c.devStop g ≤ t.deviceBufferOffset)) = cs :=
    List.takeWhile_eq_self_iff.mpr fun c hc => decide_eq_true (h c hc)
  have hstop : [c].takeWhile (fun c => decide (c.devStop g ≤ t.deviceBufferOffset)) = [] :=
    List.takeWhile_cons_of_neg (by simpa using hc)
  simp only [TensorMetadate.settle, List.takeWhile_append, hself, if_true, hstop,
    List.append_nil]

/-! ## The ledger -/

/-- Which tensors have their prefetch chunk: `A` are those of finished laps, `B₁` and
`B₂` those of the lap before the open one, split where `inBufferTensorId` stands, `C`
those of the open lap.  `pre` are the chunks of closed laps and `cs` those of the open
one; `free` entries of the vector are still to be filled. -/
structure Ledger (g : Geometry) (st : LayoutState) (A B₁ B₂ C : List TensorMetadate)
    (pre cs : List Chunk) (free : ℕ) : Prop where
  tensors : st.tensors = A ++ (B₁.map (TensorMetadate.settle g pre.length cs)
    ++ (B₂ ++ (C ++ List.replicate free default)))
  tensorId : st.tensorId = A.length + B₁.length + B₂.length + C.length
  inBuffer : st.inBufferTensorId = A.length + B₁.length
  leftMost : st.leftMostTensorId = A.length + B₁.length + B₂.length
  gone : ∀ t ∈ B₁, ∃ c ∈ cs, t.deviceBufferOffset < c.devStop g
  kept : ∀ t ∈ B₂, ∀ c ∈ cs, c.devStop g ≤ t.deviceBufferOffset
  sorted : B₂.Pairwise fun t u => t.deviceBufferOffset ≤ u.deviceBufferOffset
  chunks : st.chunks = pre ++ cs

variable {st : LayoutState} {A B₁ B₂ C : List TensorMetadate} {pre cs : List Chunk} {free : ℕ}

/-- In a sorted list, what the loop leaves behind lies at or above the limit. -/
theorem le_of_mem_dropWhile {limit : ℕ} {t : TensorMetadate} {B : List TensorMetadate}
    (hs : B.Pairwise (fun t u => t.deviceBufferOffset ≤ u.deviceBufferOffset))
    (ht : t ∈ B.dropWhile (fun t => decide (t.deviceBufferOffset < limit))) :
    limit ≤ t.deviceBufferOffset := by
  induction B with
  | nil => cases ht
  | cons b B ih =>
      rw [List.dropWhile_cons] at ht
      split at ht
      · exact ih hs.of_cons ht
      · next hb =>
          have hb' : limit ≤ b.deviceBufferOffset := by simpa using hb
          rcases List.mem_cons.mp ht with rfl | ht
          · exact hb'
          · exact Nat.le_trans hb' ((List.pairwise_cons.mp hs).1 t ht)

/-- `finish_chunk` on a non-empty open chunk pushes it and moves `inBufferTensorId` over
the tensors it reaches. -/
theorem Ledger.finishChunk (h : Ledger g st A B₁ B₂ C pre cs free)
    (hcur : 0 < st.currentChunkSize) (hal : g.threadAlignment ∣ st.chunkFileOffset) :
    ∃ st' B₁' B₂', finishChunk g st = .ok st' ∧ B₁' ++ B₂' = B₁ ++ B₂ ∧
      Ledger g st' A B₁' B₂' C pre (cs ++ [{
        size := st.currentChunkSize
        fileIndex := st.chunkFileIndex
        fileOffset := st.chunkFileOffset
        deviceBufferOffset := st.chunkDeviceBufferOffset }]) free ∧
      st'.chunkFileIndex = st.chunkFileIndex ∧
      st'.chunkFileOffset
        = st.chunkFileOffset + roundDown st.currentChunkSize g.threadAlignment ∧
      st'.chunkDeviceBufferOffset
        = st.chunkDeviceBufferOffset + roundUp st.currentChunkSize g.worldChunkAlignment ∧
      st'.currentChunkSize = st.currentChunkSize % g.threadAlignment ∧
      st'.tensorId = st.tensorId := by
  set c : Chunk := {
    size := st.currentChunkSize
    fileIndex := st.chunkFileIndex
    fileOffset := st.chunkFileOffset
    deviceBufferOffset := st.chunkDeviceBufferOffset } with hc
  set gone : TensorMetadate → Bool := fun t => t.deviceBufferOffset < c.devStop g with hgone
  have hlen : st.leftMostTensorId - st.inBufferTensorId = B₂.length := by
    have := h.leftMost
    have := h.inBuffer
    omega
  have hprev : ((st.chunks ++ [c]).length : ℤ) - 2 = (pre.length : ℤ) - 1 + cs.length := by
    simp only [h.chunks, List.length_append, List.length_singleton]
    omega
  have hfin := assignPrefetch_eq gone ((pre.length : ℤ) - 1 + cs.length) B₂
    (A ++ B₁.map (TensorMetadate.settle g pre.length cs)) (C ++ List.replicate free default)
    { st with
      chunks := st.chunks ++ [c]
      chunkFileOffset := st.chunkFileOffset + roundDown st.currentChunkSize g.threadAlignment
      chunkDeviceBufferOffset := c.devStop g
      currentChunkSize := st.currentChunkSize % g.threadAlignment }
    (by simpa using h.tensors) (by simpa using h.inBuffer)
  have hstep : InstantTensor.finishChunk g st = .ok (assignPrefetch gone
      ((pre.length : ℤ) - 1 + cs.length) B₂.length
      { st with
        chunks := st.chunks ++ [c]
        chunkFileOffset := st.chunkFileOffset + roundDown st.currentChunkSize g.threadAlignment
        chunkDeviceBufferOffset := c.devStop g
        currentChunkSize := st.currentChunkSize % g.threadAlignment }) := by
    rw [InstantTensor.finishChunk, if_pos hcur]
    simp only [Nat.mod_eq_zero_of_dvd hal, ne_eq, not_true_eq_false, if_false, hlen, ← hc, hprev]
    rfl
  rw [hfin] at hstep
  refine ⟨_, B₁ ++ B₂.takeWhile gone, B₂.dropWhile gone, hstep, ?_, ?_, rfl, rfl, rfl, rfl, rfl⟩
  · rw [List.append_assoc, List.takeWhile_append_dropWhile]
  · have hB₁ : B₁.map (TensorMetadate.settle g pre.length (cs ++ [c]))
        = B₁.map (TensorMetadate.settle g pre.length cs) :=
      List.map_congr_left fun t ht => settle_append_of_gone c (h.gone t ht)
    have hB₂ : (B₂.takeWhile gone).map (TensorMetadate.settle g pre.length (cs ++ [c]))
        = (B₂.takeWhile gone).map
            (fun t => { t with prefetchChunkId := (pre.length : ℤ) - 1 + cs.length }) :=
      List.map_congr_left fun t ht => settle_append_of_kept
        (h.kept t ((List.takeWhile_prefix gone).subset ht))
        (by simpa [hgone] using List.mem_takeWhile_imp ht)
    have hcut : (B₂.takeWhile gone).length + (B₂.dropWhile gone).length = B₂.length := by
      rw [← List.length_append, List.takeWhile_append_dropWhile]
    refine ⟨?_, ?_, ?_, ?_, ?_, ?_, ?_, ?_⟩
    · simp only [List.map_append, hB₁, hB₂, List.append_assoc]
    · have := h.tensorId
      simp only [List.length_append]
      omega
    · simp only [List.length_append, List.length_map]
      omega
    · have := h.leftMost
      simp only [List.length_append]
      omega
    · intro t ht
      rcases List.mem_append.mp ht with ht | ht
      · obtain ⟨c', hc', hlt⟩ := h.gone t ht
        exact ⟨c', List.mem_append_left _ hc', hlt⟩
      · exact ⟨c, List.mem_append_right _ (List.mem_singleton.mpr rfl),
          by simpa [hgone] using List.mem_takeWhile_imp ht⟩
    · intro t ht c' hc'
      rcases List.mem_append.mp hc' with hc' | hc'
      · exact h.kept t ((List.dropWhile_suffix gone).subset ht) c' hc'
      · rw [List.mem_singleton.mp hc']
        exact le_of_mem_dropWhile h.sorted ht
    · exact h.sorted.sublist (List.dropWhile_suffix gone).sublist
    · simp only [h.chunks, List.append_assoc]

/-- `reset_chunk_buffer_offset` settles what is left of the lap before the open one; the
open lap takes its place. -/
theorem Ledger.resetChunkBufferOffset (h : Ledger g st A B₁ B₂ C pre cs free)
    (hcur : st.currentChunkSize < g.threadAlignment)
    (hC : C.Pairwise fun t u => t.deviceBufferOffset ≤ u.deviceBufferOffset) :
    ∃ st', resetChunkBufferOffset g st.tensorId st = .ok st' ∧
      Ledger g st' (A ++ (B₁ ++ B₂).map (TensorMetadate.settle g pre.length cs)) [] C []
        (pre ++ cs) [] free ∧
      st'.chunkFileIndex = st.chunkFileIndex ∧
      st'.chunkFileOffset = st.chunkFileOffset ∧
      st'.chunkDeviceBufferOffset
        = firstTensorAlignment - st.currentChunkSize % firstTensorAlignment ∧
      st'.currentChunkSize = st.currentChunkSize ∧
      st'.tensorId = st.tensorId := by
  have hlen : st.leftMostTensorId - st.inBufferTensorId = B₂.length := by
    have := h.leftMost
    have := h.inBuffer
    omega
  have hlatest : (st.chunks.length : ℤ) - 1 = (pre.length : ℤ) - 1 + cs.length := by
    simp only [h.chunks, List.length_append]
    omega
  have hfin := assignPrefetch_eq (fun _ => true) ((pre.length : ℤ) - 1 + cs.length) B₂
    (A ++ B₁.map (TensorMetadate.settle g pre.length cs)) (C ++ List.replicate free default) st
    (by simpa using h.tensors) (by simpa using h.inBuffer)
  rw [List.takeWhile_eq_self_iff.mpr (fun _ _ => rfl),
    List.dropWhile_eq_nil_iff.mpr (fun _ _ => rfl)] at hfin
  have hB₂ : B₂.map (TensorMetadate.settle g pre.length cs)
      = B₂.map (fun t => { t with prefetchChunkId := (pre.length : ℤ) - 1 + cs.length }) :=
    List.map_congr_left fun t ht => settle_of_kept (h.kept t ht)
  simp only [InstantTensor.resetChunkBufferOffset, if_neg (Nat.not_le.mpr hcur), hlen, hlatest,
    hfin]
  refine ⟨_, rfl, ?_, rfl, rfl, rfl, rfl, rfl⟩
  have hid := h.tensorId
  refine ⟨?_, ?_, ?_, ?_, by simp, by simp, hC, ?_⟩
  · simp [hB₂]
  · simp only [List.length_append, List.length_map, List.length_nil]
    omega
  · simp [Nat.add_assoc]
  · simp only [List.length_append, List.length_map, List.length_nil]
    omega
  · simp [h.chunks]

/-- The ledger does not read the cursors of the open chunk. -/
theorem Ledger.congr {st' : LayoutState} (h : Ledger g st A B₁ B₂ C pre cs free)
    (ht : st'.tensors = st.tensors) (hid : st'.tensorId = st.tensorId)
    (hib : st'.inBufferTensorId = st.inBufferTensorId)
    (hlm : st'.leftMostTensorId = st.leftMostTensorId) (hc : st'.chunks = st.chunks) :
    Ledger g st' A B₁ B₂ C pre cs free where
  tensors := ht ▸ h.tensors
  tensorId := hid ▸ h.tensorId
  inBuffer := hib ▸ h.inBuffer
  leftMost := hlm ▸ h.leftMost
  gone := h.gone
  kept := h.kept
  sorted := h.sorted
  chunks := hc ▸ h.chunks

/-! ## The open chunk -/

/-- The open chunk is piece `q` of segment `s`, of which `x` bytes have been passed. -/
structure AtPiece (g : Geometry) (st : LayoutState) (s : Segment) (q x : ℕ) : Prop where
  fileIndex : st.chunkFileIndex = s.fileIndex
  fileOffset : st.chunkFileOffset = s.base + q * g.worldChunkSize
  dev : st.chunkDeviceBufferOffset = s.dev + q * g.worldChunkSize
  size : q * g.worldChunkSize + st.currentChunkSize = x
  le : st.currentChunkSize ≤ g.worldChunkSize

theorem sizeSub_of_le {a b : ℕ} (h : b ≤ a) : sizeSub a b = .ok (a - b) := if_pos h

theorem sizeSub_ok {a b c : ℕ} (h : sizeSub a b = .ok c) : b ≤ a ∧ c = a - b := by
  rw [sizeSub] at h
  split at h
  · next hle => exact ⟨hle, (Except.ok.inj h).symm⟩
  · cases h

/-- The chunk-splitting loop pushes full pieces until the rest fits in one.  The count
bounds the iterations because only the first of them can leave the tensor as it is. -/
theorem splitTensor_spec (hg : g.WF) {s : Segment} (hbase : g.threadAlignment ∣ s.base)
    {cs₀ : List Chunk} (fuel left : ℕ) {st : LayoutState} {q x : ℕ} {B₁ B₂ : List TensorMetadate}
    (hf : left + 1 < fuel ∨ left < fuel ∧ st.currentChunkSize < g.worldChunkSize)
    (hp : AtPiece g st s q x) (hq : q = 0 ∨ q * g.worldChunkSize < x + left)
    (hl : Ledger g st A B₁ B₂ C pre (cs₀ ++ (List.range q).map (s.full g)) free) :
    ∃ st' q' B₁' B₂', splitTensor g fuel left st = .ok st' ∧ B₁' ++ B₂' = B₁ ++ B₂ ∧
      Ledger g st' A B₁' B₂' C pre (cs₀ ++ (List.range q').map (s.full g)) free ∧
      AtPiece g st' s q' (x + left) ∧ (q' = 0 ∨ q' * g.worldChunkSize < x + left) := by
  induction fuel generalizing left st q x B₁ B₂ with
  | zero => omega
  | succ fuel ih =>
      by_cases hmore : g.worldChunkSize < st.currentChunkSize + left
      · have hle := hp.le
        have hsize := hp.size
        have hpos := hg.chunk_pos
        have hal : g.threadAlignment ∣ st.chunkFileOffset := by
          rw [hp.fileOffset]
          exact Nat.dvd_add hbase (Nat.dvd_mul_left_of_dvd (hg.thread_dvd.trans hg.world_dvd) q)
        have hfull : st.currentChunkSize + (g.worldChunkSize - st.currentChunkSize)
            = g.worldChunkSize := by omega
        have hl' : Ledger g { st with
            currentChunkSize := st.currentChunkSize + (g.worldChunkSize - st.currentChunkSize) }
            A B₁ B₂ C pre (cs₀ ++ (List.range q).map (s.full g)) free :=
          hl.congr rfl rfl rfl rfl rfl
        obtain ⟨st₁, B₁', B₂', hfin, hB, hl₁, hfile, hoff, hdev, hcur, -⟩ :=
          hl'.finishChunk (by simpa [hfull] using hpos) hal
        simp only [hfull] at hfin hl₁ hoff hdev hcur
        rw [roundDown_of_dvd (hg.thread_dvd.trans hg.world_dvd)] at hoff
        rw [roundUp_of_dvd hg.world_pos hg.world_dvd] at hdev
        rw [Nat.mod_eq_zero_of_dvd (hg.thread_dvd.trans hg.world_dvd)] at hcur
        have hpush : cs₀ ++ (List.range q).map (s.full g) ++ [{
              size := g.worldChunkSize
              fileIndex := st.chunkFileIndex
              fileOffset := st.chunkFileOffset
              deviceBufferOffset := st.chunkDeviceBufferOffset }]
            = cs₀ ++ (List.range (q + 1)).map (s.full g) := by
          rw [List.range_succ, List.map_append, List.append_assoc, hp.fileIndex, hp.fileOffset,
            hp.dev]
          rfl
        rw [hpush] at hl₁
        have hp₁ : AtPiece g st₁ s (q + 1) ((q + 1) * g.worldChunkSize) := by
          refine ⟨hfile.trans hp.fileIndex, ?_, ?_, ?_, ?_⟩
          · rw [hoff, hp.fileOffset, Nat.succ_mul, Nat.add_assoc]
          · rw [hdev, hp.dev, Nat.succ_mul, Nat.add_assoc]
          · rw [hcur, Nat.add_zero]
          · omega
        have hsum : (q + 1) * g.worldChunkSize + (left - (g.worldChunkSize - st.currentChunkSize))
            = x + left := by
          rw [Nat.succ_mul]
          omega
        obtain ⟨st', q', B₁'', B₂'', hok, hB', hl'', hp', hq'⟩ :=
          ih (left - (g.worldChunkSize - st.currentChunkSize))
            (by omega) hp₁ (by rw [hsum, Nat.succ_mul]; omega) hl₁
        rw [hsum] at hp' hq'
        refine ⟨st', q', B₁'', B₂'', ?_, hB'.trans hB, hl'', hp', hq'⟩
        have hleft : g.worldChunkSize - st.currentChunkSize ≤ left := by omega
        rw [splitTensor, if_pos hmore]
        simp only [sizeSub_of_le hle, sizeSub_of_le hleft, ok_bind, hfull, hfin, hok]
      · refine ⟨_, q, B₁, B₂, by rw [splitTensor, if_neg hmore], rfl, ?_, ?_, hq⟩
        · exact hl.congr rfl rfl rfl rfl rfl
        · have := hp.size
          exact ⟨hp.fileIndex, hp.fileOffset, hp.dev, by simp only; omega, by simp only; omega⟩

/-! ## Segments and their chunks -/

theorem Segment.chunks_of_len_zero (hg : g.WF) {s : Segment} (h : s.len = 0) :
    s.chunks g = [] := by
  simp [Segment.chunks, h, divCeil_zero hg.chunk_pos]

/-- A segment that ends in piece `q` is read as `q` full chunks and one with the rest. -/
theorem Segment.chunks_eq (hg : g.WF) {s : Segment} {q : ℕ} (hlt : q * g.worldChunkSize < s.len)
    (hle : s.len ≤ (q + 1) * g.worldChunkSize) :
    s.chunks g = (List.range q).map (s.full g)
      ++ [{ s.full g q with size := s.len - q * g.worldChunkSize }] := by
  have hdiv : (s.len - 1) / g.worldChunkSize = q := by
    refine Nat.div_eq_of_lt_le (by omega) (by omega)
  have hpieces : divCeil s.len g.worldChunkSize = q + 1 := by
    rw [divCeil_of_pos hg.chunk_pos (by omega), hdiv]
  rw [Segment.chunks, hpieces, List.range_succ, List.map_append]
  congr 1
  · refine List.map_congr_left fun i hi => ?_
    have hi' : (i + 1) * g.worldChunkSize ≤ q * g.worldChunkSize :=
      Nat.mul_le_mul_right _ (List.mem_range.mp hi)
    rw [Nat.succ_mul] at hi'
    simp only [Segment.chunk, Nat.min_eq_left (show g.worldChunkSize
      ≤ s.len - i * g.worldChunkSize by omega)]
    rfl
  · rw [Nat.succ_mul] at hle
    simp only [List.map_cons, List.map_nil, Segment.chunk,
      Nat.min_eq_right (show s.len - q * g.worldChunkSize ≤ g.worldChunkSize by omega)]

theorem Lap.chunks_append (lap lap' : Lap) :
    Lap.chunks g (lap ++ lap') = lap.chunks g ++ lap'.chunks g :=
  List.flatMap_append

@[simp] theorem Lap.chunks_nil : Lap.chunks g [] = [] := rfl

theorem Lap.chunks_singleton (s : Segment) : Lap.chunks g [s] = s.chunks g :=
  List.flatMap_singleton ..

theorem Lap.tensors_append (n : ℕ) (lap lap' : Lap) : Lap.tensors g n (lap ++ lap')
    = lap.tensors g n ++ lap'.tensors g (n + (lap.chunks g).length) := by
  induction lap generalizing n with
  | nil => simp [Lap.tensors]
  | cons s lap ih =>
      have hlen : (Lap.chunks g (s :: lap)).length
          = (s.chunks g).length + (Lap.chunks g lap).length := by
        simp [Lap.chunks]
      simp only [List.cons_append, Lap.tensors, ih, hlen, List.append_assoc, Nat.add_assoc]

theorem Lap.tensors_singleton (n : ℕ) (s : Segment) : Lap.tensors g n [s] = s.tensors g n :=
  List.append_nil _

/-! ## The simulation -/

/-- The cursors `st` stand at the end of segment `s`, behind the closed segments
`closed` of the open lap; `A`, `B` and `pre` are what earlier laps left. -/
structure Sim (g : Geometry) (st : LayoutState) (A B : List TensorMetadate) (pre : List Chunk)
    (closed : Lap) (s : Segment) (free : ℕ) : Prop where
  base_dvd : g.threadAlignment ∣ s.base
  base_le : s.base ≤ s.stop
  sorted : (Lap.tensors g pre.length (closed ++ [s])).Pairwise
    fun t u => t.deviceBufferOffset ≤ u.deviceBufferOffset
  below : ∀ t ∈ Lap.tensors g pre.length (closed ++ [s]), t.deviceBufferOffset ≤ s.dev + s.len
  state : ∃ q B₁ B₂, B₁ ++ B₂ = B ∧ AtPiece g st s q s.len ∧
    (q = 0 ∨ q * g.worldChunkSize < s.len) ∧
    Ledger g st A B₁ B₂ (Lap.tensors g pre.length (closed ++ [s])) pre
      (closed.chunks g ++ (List.range q).map (s.full g)) free

variable {B : List TensorMetadate} {closed : Lap} {s : Segment}

/-- Closing the open segment: its last chunk is pushed, and the cursors stand at the page
that holds the next byte of the file. -/
theorem Sim.finishChunk (hg : g.WF) (h : Sim g st A B pre closed s free) :
    ∃ st' B₁ B₂, finishChunk g st = .ok st' ∧ B₁ ++ B₂ = B ∧
      Ledger g st' A B₁ B₂ (Lap.tensors g pre.length (closed ++ [s])) pre
        (Lap.chunks g (closed ++ [s])) free ∧
      st'.chunkFileIndex = s.fileIndex ∧
      st'.chunkFileOffset = roundDown s.stop g.threadAlignment ∧
      st'.chunkDeviceBufferOffset = s.devStop g ∧
      st'.currentChunkSize = s.stop % g.threadAlignment ∧
      st'.tensorId = st.tensorId := by
  obtain ⟨q, B₁, B₂, hB, hp, hq, hl⟩ := h.state
  have hbase := h.base_le
  have hsize := hp.size
  have hstop : s.base + s.len = s.stop := Nat.add_sub_cancel' hbase
  by_cases hcur : st.currentChunkSize = 0
  · -- only a segment without bytes has nothing in its open chunk
    have hq0 : q = 0 := by omega
    subst hq0
    have hlen : s.len = 0 := by omega
    have hsb : s.stop = s.base := by omega
    refine ⟨st, B₁, B₂, ?_, hB, ?_, hp.fileIndex, ?_, ?_, ?_, rfl⟩
    · rw [InstantTensor.finishChunk, if_neg (by omega)]
    · rw [Lap.chunks_append, Lap.chunks_singleton, Segment.chunks_of_len_zero hg hlen]
      simpa using hl
    · rw [hp.fileOffset, hsb, roundDown_of_dvd h.base_dvd, Nat.zero_mul, Nat.add_zero]
    · rw [hp.dev, Segment.devStop, hlen, roundUp_zero hg.world_pos, Nat.zero_mul]
    · rw [hcur, hsb, Nat.mod_eq_zero_of_dvd h.base_dvd]
  · have hle := hp.le
    have hlt : q * g.worldChunkSize < s.len := by omega
    have hle' : s.len ≤ (q + 1) * g.worldChunkSize := by
      rw [Nat.succ_mul]
      omega
    have hpage : g.threadAlignment ∣ q * g.worldChunkSize :=
      Nat.dvd_mul_left_of_dvd (hg.thread_dvd.trans hg.world_dvd) q
    have hal : g.threadAlignment ∣ st.chunkFileOffset := hp.fileOffset ▸ Nat.dvd_add h.base_dvd hpage
    have hmod : s.stop % g.threadAlignment = st.currentChunkSize % g.threadAlignment := by
      obtain ⟨k, hk⟩ := Nat.dvd_add h.base_dvd hpage
      rw [← hstop, ← hsize, ← Nat.add_assoc, hk, Nat.mul_add_mod]
    obtain ⟨st', B₁', B₂', hok, hB', hl', hfile, hoff, hdev, hcur', hid⟩ :=
      hl.finishChunk (Nat.pos_of_ne_zero hcur) hal
    refine ⟨st', B₁', B₂', hok, hB'.trans hB, ?_, hfile.trans hp.fileIndex, ?_, ?_, ?_, hid⟩
    · rw [Lap.chunks_append, Lap.chunks_singleton, Segment.chunks_eq hg hlt hle', ← List.append_assoc]
      have hlast : s.len - q * g.worldChunkSize = st.currentChunkSize := by omega
      rw [hlast]
      simpa only [hp.fileIndex, hp.fileOffset, hp.dev, Segment.full] using hl'
    · rw [hoff, roundDown_eq_sub, roundDown_eq_sub, hmod, hp.fileOffset]
      have := Nat.mod_le st.currentChunkSize g.threadAlignment
      omega
    · rw [hdev, hp.dev, Segment.devStop, ← hsize,
        roundUp_add_left hg.world_pos (Nat.dvd_mul_left_of_dvd hg.world_dvd q), Nat.add_assoc]
    · rw [hcur', hmod]

/-! ### Opening a segment -/

theorem Segment.opened_len (f o level : ℕ) :
    (Segment.opened g f o level).len = o % g.threadAlignment := by
  have := roundDown_add_mod o g.threadAlignment
  simp only [Segment.len, Segment.opened]
  omega

theorem Segment.opened_base_le (f o level : ℕ) :
    (Segment.opened g f o level).base ≤ (Segment.opened g f o level).stop :=
  roundDown_le o g.threadAlignment

/-- An opened segment starts behind the level it is opened at. -/
theorem Segment.lt_opened_dev (f o level : ℕ) : level < (Segment.opened g f o level).dev := by
  have hle : level ≤ roundUp level firstTensorAlignment := le_roundUp (by decide)
  have hmod : o % g.threadAlignment % firstTensorAlignment < firstTensorAlignment :=
    Nat.mod_lt _ (by decide)
  simp only [Segment.opened]
  omega

theorem Lap.tensors_append_opened (n : ℕ) (lap : Lap) (f o level : ℕ) :
    Lap.tensors g n (lap ++ [Segment.opened g f o level]) = lap.tensors g n := by
  rw [Lap.tensors_append, Lap.tensors_singleton]
  exact List.append_nil _

theorem atPiece_opened (hg : g.WF) {f o level : ℕ}
    (hfile : st.chunkFileIndex = f)
    (hoff : st.chunkFileOffset = roundDown o g.threadAlignment)
    (hdev : st.chunkDeviceBufferOffset = (Segment.opened g f o level).dev)
    (hcur : st.currentChunkSize = o % g.threadAlignment) :
    AtPiece g st (Segment.opened g f o level) 0 (Segment.opened g f o level).len := by
  refine ⟨hfile, ?_, ?_, ?_, ?_⟩
  · rw [hoff, Nat.zero_mul, Nat.add_zero]
    rfl
  · rw [hdev, Nat.zero_mul, Nat.add_zero]
  · rw [Segment.opened_len, hcur, Nat.zero_mul, Nat.zero_add]
  · have hlt := Nat.mod_lt o hg.thread_pos
    have hle : g.threadAlignment ≤ g.worldChunkSize :=
      Nat.le_of_dvd hg.chunk_pos (hg.thread_dvd.trans hg.world_dvd)
    omega

/-- The file switch of the placement loop. -/
theorem Sim.nextFile (hg : g.WF) (h : Sim g st A B pre closed s free) (f o : ℕ) :
    ∃ st', (InstantTensor.finishChunk g st >>= resetChunkFile g f o) = .ok st' ∧
      Sim g st' A B pre (closed ++ [s]) (Segment.opened g f o (s.devStop g)) free := by
  obtain ⟨st₁, B₁, B₂, hok, hB, hl, -, -, hdev, hcur, -⟩ := h.finishChunk hg
  have hlt : st₁.currentChunkSize < g.threadAlignment := hcur ▸ Nat.mod_lt _ hg.thread_pos
  have hreset : resetChunkFile g f o st₁ = .ok { st₁ with
      chunkFileIndex := f
      chunkFileOffset := roundDown o g.threadAlignment
      currentChunkSize := o % g.threadAlignment
      chunkDeviceBufferOffset :=
        roundUp st₁.chunkDeviceBufferOffset firstTensorAlignment + firstTensorAlignment
          - o % g.threadAlignment % firstTensorAlignment } := by
    rw [resetChunkFile, if_neg (Nat.not_le.mpr hlt)]
  refine ⟨_, by rw [hok, ok_bind, hreset], ?_⟩
  refine ⟨dvd_roundDown _ _, Segment.opened_base_le f o _, ?_, ?_, 0, B₁, B₂, hB, ?_, .inl rfl, ?_⟩
  · rw [Lap.tensors_append_opened]
    exact h.sorted
  · intro t ht
    rw [Lap.tensors_append_opened] at ht
    have hle := h.below t ht
    have hpad : s.len ≤ roundUp s.len g.worldChunkAlignment := le_roundUp hg.world_pos
    have hopen := Segment.lt_opened_dev (g := g) f o (s.devStop g)
    simp only [Segment.devStop] at hopen ⊢
    omega
  · exact atPiece_opened hg rfl rfl (by simp only [hdev]; rfl) rfl
  · rw [Lap.tensors_append_opened, List.range_zero, List.map_nil, List.append_nil]
    exact hl.congr rfl rfl rfl rfl rfl

/-- The return to the beginning of the buffer: the lap is settled into the next one's
past. -/
theorem Sim.wrap (hg : g.WF) (h : Sim g st A B pre closed s free) :
    ∃ st', (InstantTensor.finishChunk g st
        >>= fun st => InstantTensor.resetChunkBufferOffset g st.tensorId st) = .ok st' ∧
      Sim g st' (A ++ B.map (TensorMetadate.settle g pre.length (Lap.chunks g (closed ++ [s]))))
        (Lap.tensors g pre.length (closed ++ [s])) (pre ++ Lap.chunks g (closed ++ [s])) []
        (Segment.opened g s.fileIndex s.stop 0) free := by
  obtain ⟨st₁, B₁, B₂, hok, hB, hl, hfile, hoff, -, hcur, -⟩ := h.finishChunk hg
  have hlt : st₁.currentChunkSize < g.threadAlignment := hcur ▸ Nat.mod_lt _ hg.thread_pos
  obtain ⟨st₂, hok₂, hl₂, hfile₂, hoff₂, hdev₂, hcur₂, -⟩ :=
    hl.resetChunkBufferOffset hlt h.sorted
  refine ⟨st₂, by rw [hok, ok_bind, hok₂], ?_⟩
  have hnone := Lap.tensors_append_opened (g := g)
    (pre ++ Lap.chunks g (closed ++ [s])).length [] s.fileIndex s.stop 0
  have hnil : Lap.tensors g (pre ++ Lap.chunks g (closed ++ [s])).length [] = [] := rfl
  refine ⟨dvd_roundDown _ _, Segment.opened_base_le _ _ _, ?_, ?_, 0, [], _, rfl, ?_, .inl rfl, ?_⟩
  · rw [hnone, hnil]
    exact List.Pairwise.nil
  · rw [hnone, hnil]
    exact fun _ ht => absurd ht List.not_mem_nil
  · refine atPiece_opened hg (hfile₂.trans hfile) (hoff₂.trans hoff) ?_ (hcur₂.trans hcur)
    rw [hdev₂, hcur]
    simp only [Segment.opened, roundUp_zero (show 0 < firstTensorAlignment by decide), Nat.zero_add]
  · rw [hnone, hnil, ← hB]
    simpa using hl₂

/-! ### Placing a tensor -/

theorem set_length_append {α : Type} (a b : α) (l l' : List α) :
    (l' ++ a :: l).set l'.length b = l' ++ b :: l := by
  induction l' with
  | nil => rfl
  | cons x l' ih => exact congrArg (x :: ·) ih

theorem Ledger.append (h : Ledger g st A B₁ B₂ C pre cs (free + 1)) (t : TensorMetadate) :
    st.tensorId < st.tensors.length ∧
      Ledger g { st with
        tensors := st.tensors.set st.tensorId t
        tensorId := st.tensorId + 1 } A B₁ B₂ (C ++ [t]) pre cs free := by
  have hid := h.tensorId
  set filled := A ++ (B₁.map (TensorMetadate.settle g pre.length cs) ++ (B₂ ++ C)) with hfilled
  have hlen : st.tensorId = filled.length := by
    simp only [hfilled, List.length_append, List.length_map]
    omega
  have ht : st.tensors = filled ++ default :: List.replicate free default := by
    simp only [h.tensors, hfilled, List.append_assoc, List.replicate_succ]
  refine ⟨?_, ?_, ?_, h.inBuffer, h.leftMost, h.gone, h.kept, h.sorted, h.chunks⟩
  · rw [ht, hlen]
    simp
  · simp only [ht, hlen, set_length_append]
    simp only [hfilled, List.append_assoc, List.singleton_append]
  · simp only [List.length_append, List.length_singleton]
    omega

/-- The entry `appendTensor` writes for a tensor that ends the segment. -/
theorem Lap.tensors_push (n : ℕ) (closed : Lap) (s : Segment) (o o' : ℕ) :
    Lap.tensors g n (closed ++ [s.push o o']) = Lap.tensors g n (closed ++ [s]) ++ [{
      size := o' - o
      fileIndex := s.fileIndex
      fileOffset := o
      deviceBufferOffset := s.dev + (o - s.base)
      lastChunkId :=
        (n + (Lap.chunks g closed).length + (o' - s.base - 1) / g.worldChunkSize : ℕ)
      prefetchChunkId := 0 }] := by
  simp only [Lap.tensors_append, Lap.tensors_singleton, Segment.tensors, Segment.push,
    List.map_append, List.append_assoc]
  rfl

theorem Sim.append (hg : g.WF) (h : Sim g st A B pre closed s (free + 1)) {o' : ℕ}
    (ho : s.stop ≤ o') :
    ∃ st', appendTensor g s.fileIndex s.stop (o' - s.stop) st = .ok st' ∧
      Sim g st' A B pre closed (s.push s.stop o') free := by
  obtain ⟨q, B₁, B₂, hB, hp, hq, hl⟩ := h.state
  have hbase := h.base_le
  have hsize := hp.size
  have hlen : s.base + s.len = s.stop := Nat.add_sub_cancel' hbase
  have hlen' : (s.push s.stop o').len = s.len + (o' - s.stop) := by
    simp only [Segment.len, Segment.push]
    omega
  have hoff : st.chunkFileOffset ≤ s.stop := by
    rw [hp.fileOffset]
    omega
  obtain ⟨st₁, q', B₁', B₂', hok, hB', hl₁, hp₁, hq'⟩ :=
    splitTensor_spec hg h.base_dvd (o' - s.stop + 2) (o' - s.stop) (.inl (by omega)) hp
      (hq.imp_right (by omega)) hl
  have haddr : s.stop - st.chunkFileOffset + st.chunkDeviceBufferOffset
      = s.dev + (s.stop - s.base) := by
    rw [hp.fileOffset, hp.dev]
    omega
  have hpiece : (o' - s.base - 1) / g.worldChunkSize = q' := by
    have hx : o' - s.base = s.len + (o' - s.stop) := by omega
    have hsize₁ := hp₁.size
    have hle₁ := hp₁.le
    have hpos := hg.chunk_pos
    rw [hx]
    rcases hq' with rfl | hlt
    · exact Nat.div_eq_of_lt (by omega)
    · refine Nat.div_eq_of_lt_le (by omega) ?_
      rw [Nat.succ_mul]
      omega
  have hlast : (st₁.chunks.length : ℤ)
      = (pre.length + (closed.chunks g).length + (o' - s.base - 1) / g.worldChunkSize : ℕ) := by
    rw [hpiece, hl₁.chunks]
    simp [Nat.add_assoc]
  obtain ⟨hroom, hl₂⟩ := hl₁.append {
    size := o' - s.stop
    fileIndex := s.fileIndex
    fileOffset := s.stop
    deviceBufferOffset := s.dev + (s.stop - s.base)
    lastChunkId :=
      (pre.length + (closed.chunks g).length + (o' - s.base - 1) / g.worldChunkSize : ℕ)
    prefetchChunkId := 0 }
  rw [← Lap.tensors_push] at hl₂
  have hstep : appendTensor g s.fileIndex s.stop (o' - s.stop) st = .ok { st₁ with
      tensors := st₁.tensors.set st₁.tensorId {
        size := o' - s.stop
        fileIndex := s.fileIndex
        fileOffset := s.stop
        deviceBufferOffset := s.dev + (s.stop - s.base)
        lastChunkId :=
          (pre.length + (closed.chunks g).length + (o' - s.base - 1) / g.worldChunkSize : ℕ)
        prefetchChunkId := 0 }
      tensorId := st₁.tensorId + 1 } := by
    simp only [appendTensor, sizeSub_of_le hoff, ok_bind, hok, if_pos hroom, haddr, hlast]
  refine ⟨_, hstep, h.base_dvd, Nat.le_trans hbase ho, ?_, ?_, q', B₁', B₂', hB'.trans hB,
    ?_, ?_, hl₂⟩
  · rw [Lap.tensors_push, List.pairwise_append]
    refine ⟨h.sorted, List.pairwise_singleton _ _, fun t ht u hu => ?_⟩
    rw [List.mem_singleton.mp hu]
    exact h.below t ht
  · intro t ht
    rw [Lap.tensors_push] at ht
    rw [hlen']
    simp only [Segment.push]
    rcases List.mem_append.mp ht with ht | ht
    · have := h.below t ht
      omega
    · rw [List.mem_singleton.mp ht]
      simp only
      omega
  · rw [hlen']
    exact ⟨hp₁.fileIndex, hp₁.fileOffset, hp₁.dev, hp₁.size, hp₁.le⟩
  · rw [hlen']
    exact hq'

/-- The sum the capacity test forms is the padded end of the extended segment. -/
theorem Sim.capacity (hg : g.WF) (h : Sim g st A B pre closed s free) {o' : ℕ} (ho : s.stop ≤ o') :
    st.chunkDeviceBufferOffset
        + roundUp (st.currentChunkSize + (o' - s.stop)) g.worldChunkAlignment
      = (s.push s.stop o').devStop g := by
  obtain ⟨q, -, -, -, hp, -, -⟩ := h.state
  have hbase := h.base_le
  have hsize := hp.size
  have hlen : s.base + s.len = s.stop := Nat.add_sub_cancel' hbase
  have hlen' : (s.push s.stop o').len
      = q * g.worldChunkSize + (st.currentChunkSize + (o' - s.stop)) := by
    simp only [Segment.len, Segment.push]
    omega
  rw [Segment.devStop, hlen', roundUp_add_left hg.world_pos
    (Nat.dvd_mul_left_of_dvd hg.world_dvd q), hp.dev, Nat.add_assoc]
  rfl

/-- The checks in front of a placement pass. -/
theorem Sim.placeTensor_eq (h : Sim g st A B pre closed s free) {o' : ℕ} (ho : s.stop ≤ o')
    (hroom : o' - s.stop ≤ g.bufferSize) :
    placeTensor g s.fileIndex s.stop o' st
      = makeRoom g (o' - s.stop) st >>= appendTensor g s.fileIndex s.stop (o' - s.stop) := by
  obtain ⟨q, -, -, -, hp, -, -⟩ := h.state
  have hbase := h.base_le
  have hsize := hp.size
  have hlen : s.base + s.len = s.stop := Nat.add_sub_cancel' hbase
  have hoff := hp.fileOffset
  have hcur : st.currentChunkSize = s.stop - st.chunkFileOffset := by omega
  simp only [placeTensor, sizeSub_of_le (show st.chunkFileOffset ≤ s.stop by omega),
    sizeSub_of_le ho, ok_bind, ne_eq, hcur, not_true_eq_false, if_false,
    if_neg (Nat.not_lt.mpr hroom)]

theorem Sim.placeTensor_fits (hg : g.WF) (h : Sim g st A B pre closed s (free + 1)) {o' : ℕ}
    (ho : s.stop ≤ o') (hroom : o' - s.stop ≤ g.bufferSize)
    (hfits : (s.push s.stop o').devStop g ≤ g.bufferSize) :
    ∃ st', placeTensor g s.fileIndex s.stop o' st = .ok st' ∧
      Sim g st' A B pre closed (s.push s.stop o') free := by
  obtain ⟨st', hok, h'⟩ := h.append hg ho
  refine ⟨st', ?_, h'⟩
  rw [h.placeTensor_eq ho hroom, makeRoom, h.capacity hg ho, if_neg (Nat.not_lt.mpr hfits), ok_bind,
    hok]

theorem Sim.placeTensor_wraps (hg : g.WF) (h : Sim g st A B pre closed s (free + 1)) {o' : ℕ}
    (ho : s.stop ≤ o') (hroom : o' - s.stop ≤ g.bufferSize)
    (hfull : ¬ (s.push s.stop o').devStop g ≤ g.bufferSize) :
    ∃ st', placeTensor g s.fileIndex s.stop o' st = .ok st' ∧
      Sim g st' (A ++ B.map (TensorMetadate.settle g pre.length (Lap.chunks g (closed ++ [s]))))
        (Lap.tensors g pre.length (closed ++ [s])) (pre ++ Lap.chunks g (closed ++ [s])) []
        ((Segment.opened g s.fileIndex s.stop 0).push s.stop o') free := by
  obtain ⟨st₁, hok₁, h₁⟩ := h.wrap hg
  obtain ⟨st₂, hok₂, h₂⟩ := h₁.append hg
    (show (Segment.opened g s.fileIndex s.stop 0).stop ≤ o' from ho)
  refine ⟨st₂, ?_, h₂⟩
  rw [h.placeTensor_eq ho hroom, makeRoom, h.capacity hg ho, if_pos (Nat.not_le.mp hfull)]
  exact (congrArg (· >>= _) hok₁).trans hok₂

/-! ## The whole function -/

/-- What follows the loop settles the last two laps. -/
theorem Sim.finishLayout (hg : g.WF) (h : Sim g st A B pre closed s 0) :
    finishLayout g st = .ok {
      tensors := A ++ (B.map (TensorMetadate.settle g pre.length (Lap.chunks g (closed ++ [s])))
        ++ (settle g pre.length [closed ++ [s]]).tensors)
      chunks := pre ++ (settle g pre.length [closed ++ [s]]).chunks } := by
  obtain ⟨st₁, B₁, B₂, hok₁, hB, hl₁, -, -, -, hcur₁, -⟩ := h.finishChunk hg
  have hlt : st₁.currentChunkSize < g.threadAlignment := hcur₁ ▸ Nat.mod_lt _ hg.thread_pos
  obtain ⟨st₂, hok₂, hl₂, -, -, -, hcur₂, -⟩ := hl₁.resetChunkBufferOffset hlt h.sorted
  obtain ⟨st₃, hok₃, hl₃, -⟩ := hl₂.resetChunkBufferOffset (hcur₂ ▸ hlt) List.Pairwise.nil
  simp only [InstantTensor.finishLayout, hok₁, hok₂, hok₃, ok_bind]
  refine congrArg Except.ok ?_
  have ht := hl₃.tensors
  have hc := hl₃.chunks
  simp only [hB, List.map_nil, List.nil_append, List.replicate_zero, List.append_nil,
    List.append_assoc] at ht hc
  simp [ht, hc, settle]

/-- The loop and what follows it, from any point of the loop on. -/
theorem placeTensors_spec (hg : g.WF) (rest : List (ℕ × ℕ)) {f o : ℕ} {filled : Bool}
    {st : LayoutState} {A B : List TensorMetadate} {pre : List Chunk} {closed : Lap} {s : Segment}
    (h : Sim g st A B pre closed s (tensorSizes ((f, o) :: rest)).length)
    (hf : s.fileIndex = f) (hs : s.stop = o) (hv : OffsetsFrom f o filled rest)
    (hroom : ∀ size ∈ tensorSizes ((f, o) :: rest), size ≤ g.bufferSize) :
    (placeTensors g ((f, o) :: rest) st >>= finishLayout g) = .ok {
      tensors := A ++ (B.map (TensorMetadate.settle g pre.length
          (Lap.chunks g ((planFrom g ((f, o) :: rest) s closed).headD [])))
        ++ (settle g pre.length (planFrom g ((f, o) :: rest) s closed)).tensors)
      chunks := pre ++ (settle g pre.length (planFrom g ((f, o) :: rest) s closed)).chunks } := by
  induction rest generalizing f o filled st A B pre closed s with
  | nil =>
      simp only [placeTensors, ok_bind, planFrom, List.headD_cons]
      exact h.finishLayout hg
  | cons e rest ih =>
      obtain ⟨f', o'⟩ := e
      subst hf hs
      rcases hv with ⟨rfl, ho, hv⟩ | ⟨-, hf', hv⟩
      · rw [tensorSizes, if_pos rfl] at hroom h
        have hsize := hroom _ List.mem_cons_self
        have hrest := fun size hm => hroom size (List.mem_cons_of_mem _ hm)
        rw [planFrom, if_neg (by simp)]
        by_cases hfits : (s.push s.stop o').devStop g ≤ g.bufferSize
        · obtain ⟨st', hok, h'⟩ := h.placeTensor_fits hg ho hsize hfits
          rw [if_pos hfits, placeTensors, if_neg (by simp), hok]
          exact ih h' rfl rfl hv hrest
        · obtain ⟨st', hok, h'⟩ := h.placeTensor_wraps hg ho hsize hfits
          rw [if_neg hfits, placeTensors, if_neg (by simp), hok]
          refine (ih h' rfl rfl hv hrest).trans ?_
          simp [settle]
      · have hne : s.fileIndex ≠ f' := by omega
        rw [tensorSizes, if_neg hne] at hroom h
        obtain ⟨st', hok, h'⟩ := h.nextFile hg f' o'
        rw [planFrom, if_pos hne, placeTensors, if_pos hne]
        refine Eq.trans ?_ (ih h' rfl rfl hv hroom)
        have hbind : (InstantTensor.finishChunk g st >>= fun st => resetChunkFile g f' o' st
            >>= placeTensors g ((f', o') :: rest)) = placeTensors g ((f', o') :: rest) st' := by
          rw [← bind_assoc, hok, ok_bind]
        exact congrArg (· >>= InstantTensor.finishLayout g) hbind

/-- An offset list has one entry more per file than it has tensors. -/
theorem tensorSizes_length (rest : List (ℕ × ℕ)) {f o : ℕ} {filled : Bool}
    (hv : OffsetsFrom f o filled rest) :
    ∃ last, ((f, o) :: rest).getLast? = some last ∧ f ≤ last.1 ∧
      (tensorSizes ((f, o) :: rest)).length + (last.1 - f) = rest.length := by
  induction rest generalizing f o filled with
  | nil => exact ⟨(f, o), rfl, Nat.le_refl f, by simp [tensorSizes]⟩
  | cons e rest ih =>
      obtain ⟨f', o'⟩ := e
      rcases hv with ⟨rfl, -, hv⟩ | ⟨-, rfl, hv⟩
      · obtain ⟨last, hlast, hle, hlen⟩ := ih hv
        refine ⟨last, by rw [List.getLast?_cons_cons, hlast], hle, ?_⟩
        rw [tensorSizes, if_pos rfl, List.length_cons, List.length_cons]
        omega
      · obtain ⟨last, hlast, hle, hlen⟩ := ih hv
        refine ⟨last, by rw [List.getLast?_cons_cons, hlast], by omega, ?_⟩
        rw [tensorSizes, if_neg (by omega), List.length_cons]
        omega

/-- The state in front of the placement loop. -/
theorem Sim.start (hg : g.WF) (o free : ℕ) :
    Sim g {
      chunkFileIndex := 0
      chunkFileOffset := roundDown o g.threadAlignment
      chunkDeviceBufferOffset := roundUp 0 firstTensorAlignment + firstTensorAlignment
        - o % g.threadAlignment % firstTensorAlignment
      currentChunkSize := o % g.threadAlignment
      tensorId := 0
      inBufferTensorId := 0
      leftMostTensorId := 0
      tensors := List.replicate free default
      chunks := [] } [] [] [] [] (Segment.opened g 0 o 0) free := by
  have hnone := Lap.tensors_append_opened (g := g) 0 [] 0 o 0
  refine ⟨dvd_roundDown _ _, Segment.opened_base_le _ _ _, ?_, ?_, 0, [], [], rfl,
    atPiece_opened hg rfl rfl rfl rfl, .inl rfl, ?_⟩
  · rw [List.length_nil, hnone]
    exact List.Pairwise.nil
  · rw [List.length_nil, hnone]
    exact fun _ ht => absurd ht List.not_mem_nil
  · rw [List.length_nil, hnone]
    exact ⟨rfl, rfl, rfl, rfl, by simp, by simp, List.Pairwise.nil, rfl⟩

/-- **`compute_layout` computes the plan**, and none of its internal errors occurs. -/
theorem computeLayout_eq_settle (hg : g.WF) {offs : List (ℕ × ℕ)} (hv : ValidOffsets offs)
    (hroom : ∀ size ∈ tensorSizes offs, size ≤ g.bufferSize) :
    computeLayout g offs = .ok (settle g 0 (plan g offs)) := by
  match offs, hv with
  | (f, o) :: rest, ⟨hf, hv⟩ =>
      subst hf
      obtain ⟨last, hlast, -, hlen⟩ := tensorSizes_length rest hv
      have hcount : ((0, o) :: rest).length - (last.1 + 1)
          = (tensorSizes ((0, o) :: rest)).length := by
        rw [List.length_cons]
        omega
      have hle : last.1 + 1 ≤ ((0, o) :: rest).length := by
        rw [List.length_cons]
        omega
      simp only [computeLayout, List.head?_cons, hlast, sizeSub_of_le hle, ok_bind, hcount,
        resetChunkFile, if_neg (Nat.not_le.mpr hg.thread_pos)]
      exact (placeTensors_spec hg rest (Sim.start hg o _) rfl rfl hv hroom).trans rfl

end

end InstantTensor
