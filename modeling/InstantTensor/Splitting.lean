/-
# `InstantTensor.Splitting` — do accepted parameters trap the loader

`_determine_io_params` compares one product with the available memory, and a factor of zero makes
that product zero.  The loader divides by roundings of the single factors, and its loop over the
chunks of a tensor ends because each turn fills a chunk of `world_chunk_size`.  A factor of zero is
accepted.  Most backends throw then before they get to their layout (`InstantTensor.Preparation`).
CUFILE does not: a concurrency or a depth of 0 ends in a division by zero, and with a chunk size of
0 no turn of the loop gets anywhere, so that it ends only for an empty tensor at the start of a page
(`untrapped_iff`).  The other backends follow where a cached host buffer lets them.

The loop is stated on `size_t` words here, as its differences wrap around where it runs away; what
is in front of it and behind it is that of `InstantTensor.Layout` (`placeTensor_eq`).
-/
import Mathlib.Algebra.Order.BigOperators.Group.List
import InstantTensor.Lib.Words
import InstantTensor.Agreement
import InstantTensor.Placement
import InstantTensor.Preparation

namespace InstantTensor

/-! ## The loop, and the way to it -/

section
variable (g : Geometry)

/-- The `while` that cuts a tensor into chunks, and the addition after it, on words; `none` where
`fuel` turns are not enough. -/
def splitWords : ℕ → ℕ → LayoutState → Option (Except LayoutError LayoutState)
  | 0, _, _ => none
  | fuel + 1, tensorSizeLeft, st =>
      if g.worldChunkSize < (st.currentChunkSize + tensorSizeLeft) % 2 ^ 64 then
        let sizeAdd := sizeDiff g.worldChunkSize st.currentChunkSize
        let currentChunkSize := (st.currentChunkSize + sizeAdd) % 2 ^ 64
        match finishChunk g { st with currentChunkSize } with
        | .ok st => splitWords fuel (sizeDiff tensorSizeLeft sizeAdd) st
        | .error e => some (.error e)
      else some (.ok { st with
        currentChunkSize := (st.currentChunkSize + tensorSizeLeft) % 2 ^ 64 })

/-- A pass of the placement loop up to the `while`: the size of the tensor, and the state. -/
def enterSplit (tensorFileOffset nextTensorOffset : ℕ) (st : LayoutState) :
    Except LayoutError (ℕ × LayoutState) := do
  let unchunked ← sizeSub tensorFileOffset st.chunkFileOffset
  if st.currentChunkSize ≠ unchunked then throw .unchunkedSizeMismatch
  let tensorSize ← sizeSub nextTensorOffset tensorFileOffset
  if g.bufferSize < tensorSize then throw .bufferSmallerThanTensor
  let st ← makeRoom g tensorSize st
  return (tensorSize, st)

/-- What a pass does behind the `while`: write the tensor's entry. -/
def recordTensor (fileIndex tensorFileOffset tensorSize deviceBufferOffset : ℕ)
    (st : LayoutState) : Except LayoutError LayoutState :=
  if st.tensorId < st.tensors.length then
    .ok { st with
      tensors := st.tensors.set st.tensorId {
        size := tensorSize
        fileIndex
        fileOffset := tensorFileOffset
        deviceBufferOffset
        lastChunkId := st.chunks.length
        prefetchChunkId := 0 }
      tensorId := st.tensorId + 1 }
  else .error .outOfRange

theorem placeTensor_eq (fileIndex tensorFileOffset nextTensorOffset : ℕ) (st : LayoutState) :
    placeTensor g fileIndex tensorFileOffset nextTensorOffset st = (do
      let (tensorSize, st) ← enterSplit g tensorFileOffset nextTensorOffset st
      let unchunked ← sizeSub tensorFileOffset st.chunkFileOffset
      let st' ← splitTensor g (tensorSize + 2) tensorSize st
      recordTensor fileIndex tensorFileOffset tensorSize
        (unchunked + st.chunkDeviceBufferOffset) st') := by
  unfold placeTensor enterSplit
  cases sizeSub tensorFileOffset st.chunkFileOffset with
  | error e => rfl
  | ok unchunked =>
      simp only [ok_bind]
      split
      · rfl
      cases sizeSub nextTensorOffset tensorFileOffset with
      | error e => rfl
      | ok tensorSize =>
          simp only [ok_bind]
          split
          · rfl
          cases makeRoom g tensorSize st with
          | error e => rfl
          | ok st => rfl

/-- What is in front of the placement loop. -/
def startLayout (tensorOffsets : List (ℕ × ℕ)) : Except LayoutError LayoutState := do
  match tensorOffsets.head?, tensorOffsets.getLast? with
  | some first, some last =>
      let numFiles := last.1 + 1
      let numTensors ← sizeSub tensorOffsets.length numFiles
      resetChunkFile g first.1 first.2 {
        chunkFileIndex := 0
        chunkFileOffset := 0
        chunkDeviceBufferOffset := 0
        currentChunkSize := 0
        tensorId := 0
        inBufferTensorId := 0
        leftMostTensorId := 0
        tensors := List.replicate numTensors default
        chunks := [] }
  | _, _ => throw .outOfRange

theorem computeLayout_eq_start (tensorOffsets : List (ℕ × ℕ)) :
    computeLayout g tensorOffsets = (do
      let st ← startLayout g tensorOffsets
      let st ← placeTensors g tensorOffsets st
      finishLayout g st) := by
  unfold computeLayout startLayout
  cases tensorOffsets.head? with
  | none => rfl
  | some first =>
      cases tensorOffsets.getLast? with
      | none => rfl
      | some last =>
          simp only
          cases sizeSub tensorOffsets.length (last.1 + 1) with
          | error e => rfl
          | ok numTensors => rfl

end

section
variable {g : Geometry} {st st' : LayoutState}

/-- The step keeps how far the file is chunked or about to be, and the entries. -/
structure LayoutState.Kept (st st' : LayoutState) : Prop where
  chunked : st'.chunkFileOffset + st'.currentChunkSize = st.chunkFileOffset + st.currentChunkSize
  tensorId : st'.tensorId = st.tensorId
  length : st'.tensors.length = st.tensors.length

theorem LayoutState.Kept.trans {st'' : LayoutState} (h : st.Kept st') (h' : st'.Kept st'') :
    st.Kept st'' :=
  ⟨h'.chunked.trans h.chunked, h'.tensorId.trans h.tensorId, h'.length.trans h.length⟩

theorem assignPrefetch_keeps (gone : TensorMetadate → Bool) (id : ℤ) (n : ℕ) (st : LayoutState) :
    st.Kept (assignPrefetch gone id n st) ∧
      (assignPrefetch gone id n st).currentChunkSize = st.currentChunkSize := by
  induction n generalizing st with
  | zero => exact ⟨⟨rfl, rfl, rfl⟩, rfl⟩
  | succ n ih =>
      rw [assignPrefetch]
      split
      · obtain ⟨hkept, hcur⟩ := ih { st with
          tensors := st.tensors.modify st.inBufferTensorId
            (fun t => { t with prefetchChunkId := id })
          inBufferTensorId := st.inBufferTensorId + 1 }
        exact ⟨⟨hkept.chunked, hkept.tensorId, hkept.length.trans (List.length_modify ..)⟩, hcur⟩
      · exact ⟨⟨rfl, rfl, rfl⟩, rfl⟩

theorem finishChunk_keeps (h : finishChunk g st = .ok st') :
    st.Kept st' ∧ st'.currentChunkSize = st.currentChunkSize % g.threadAlignment := by
  rw [finishChunk] at h
  split at h
  · simp only at h
    split at h
    · cases h
    · obtain rfl := Except.ok.inj h
      obtain ⟨hkept, hcur⟩ := assignPrefetch_keeps
        (fun t => t.deviceBufferOffset < st.chunkDeviceBufferOffset
          + roundUp st.currentChunkSize g.worldChunkAlignment) _ _ _
      refine ⟨⟨hkept.chunked.trans ?_, hkept.tensorId, hkept.length⟩, hcur⟩
      simp only
      rw [Nat.add_assoc, roundDown_add_mod]
  · next hzero =>
    obtain rfl := Except.ok.inj h
    refine ⟨⟨rfl, rfl, rfl⟩, ?_⟩
    rw [Nat.eq_zero_of_not_pos hzero, Nat.zero_mod]

/-- Where a chunk has room for what is in it, a turn fills it up on words as on numbers. -/
theorem fill_words {size cur left : ℕ} (hle : cur ≤ size) (hmore : size < cur + left)
    (hword : cur + left < 2 ^ 64) : (cur + left) % 2 ^ 64 = cur + left ∧
      (cur + sizeDiff size cur) % 2 ^ 64 = cur + (size - cur) ∧
      sizeDiff left (sizeDiff size cur) = left - (size - cur) := by
  have hdiff : sizeDiff size cur = size - cur := by
    unfold sizeDiff
    omega
  rw [hdiff]
  refine ⟨Nat.mod_eq_of_lt hword, Nat.mod_eq_of_lt (by omega), ?_⟩
  unfold sizeDiff
  omega

/-- A full chunk leaves nothing open. -/
theorem finishChunk_full (hg : g.WF) (hle : st.currentChunkSize ≤ g.worldChunkSize)
    (h : finishChunk g { st with
      currentChunkSize := st.currentChunkSize + (g.worldChunkSize - st.currentChunkSize) } = .ok st') :
    st'.currentChunkSize = 0 := by
  rw [(finishChunk_keeps h).2, Nat.add_sub_cancel' hle]
  exact Nat.mod_eq_zero_of_dvd (hg.thread_dvd.trans hg.world_dvd)

/-- The loop on words is that of the layout as long as the open chunk is not overfull. -/
theorem splitTensor_eq_splitWords (hg : g.WF) (fuel : ℕ) {left : ℕ}
    (hle : st.currentChunkSize ≤ g.worldChunkSize)
    (hword : st.currentChunkSize + left < 2 ^ 64) :
    splitTensor g fuel left st = (splitWords g fuel left st).getD (.error .splitDiverges) := by
  induction fuel generalizing left st with
  | zero => rfl
  | succ fuel ih =>
      rw [splitTensor, splitWords]
      by_cases hmore : g.worldChunkSize < st.currentChunkSize + left
      · obtain ⟨hsum, hfull, hleft⟩ := fill_words hle hmore hword
        simp only [hsum, if_pos hmore, hfull, hleft, sizeSub_of_le hle, ok_bind,
          sizeSub_of_le (show g.worldChunkSize - st.currentChunkSize ≤ left by omega)]
        cases hfinish : finishChunk g { st with
            currentChunkSize := st.currentChunkSize + (g.worldChunkSize - st.currentChunkSize) } with
        | error e => rfl
        | ok st' =>
            have hzero := finishChunk_full hg hle hfinish
            exact ih (by omega) (by omega)
      · rw [Nat.mod_eq_of_lt hword, if_neg hmore, if_neg hmore]
        rfl

end

/-! ## What is accepted -/

section
variable {s : Settings} {files : Files} {worldSize : ℕ} {availBytes : ℤ} {p p' : IOParams}

structure IOParams.Nonneg (p : IOParams) : Prop where
  chunkSize : 0 ≤ p.chunkSize
  concurrency : 0 ≤ p.concurrency
  ioDepth : 0 ≤ p.ioDepth

/-- No setting that is given is negative. -/
structure Settings.Nonneg (s : Settings) : Prop where
  chunkSize : ∀ x ∈ s.chunkSize, 0 ≤ x
  concurrency : ∀ x ∈ s.concurrency, 0 ≤ x
  ioDepth : ∀ x ∈ s.ioDepth, 0 ≤ x

/-- The same of the three are zero. -/
structure IOParams.SameZeros (p p' : IOParams) : Prop where
  chunkSize : p'.chunkSize = 0 ↔ p.chunkSize = 0
  concurrency : p'.concurrency = 0 ↔ p.concurrency = 0
  ioDepth : p'.ioDepth = 0 ↔ p.ioDepth = 0

theorem IOParams.Nonneg.bytes_nonneg (h : p.Nonneg) (worldSize : ℕ) : 0 ≤ p.bytes worldSize :=
  mul_nonneg (mul_nonneg (mul_nonneg h.chunkSize h.concurrency) h.ioDepth) (Int.natCast_nonneg _)

theorem IOParams.SameZeros.refl (p : IOParams) : p.SameZeros p := ⟨Iff.rfl, Iff.rfl, Iff.rfl⟩

/-- The depth is only touched where it is not zero, and stays positive. -/
theorem shrinkIODepth_ok (hp : p.Nonneg) (h : shrinkIODepth worldSize availBytes p = .ok p') :
    p'.Nonneg ∧ (0 ≤ availBytes → p.SameZeros p') := by
  rw [shrinkIODepth] at h
  split at h
  · next hmore =>
    obtain ⟨shrinked, -, hpure⟩ := bind_ok h
    obtain rfl := Except.ok.inj hpure
    have hpos : 0 < max shrinked 3 := lt_of_lt_of_le (by decide) (le_max_right _ _)
    refine ⟨⟨hp.chunkSize, hp.concurrency, hpos.le⟩, fun havail => ⟨Iff.rfl, Iff.rfl, ?_⟩⟩
    refine iff_of_false hpos.ne' fun hzero => ?_
    rw [p.bytes_eq_mul_ioDepth, hzero, zero_mul] at hmore
    exact absurd havail (not_le.mpr hmore)
  · obtain rfl := Except.ok.inj h
    exact ⟨hp, fun _ => .refl p⟩

theorem shrinkConcurrency_ok (hp : p.Nonneg)
    (h : shrinkConcurrency worldSize availBytes p = .ok p') :
    p'.Nonneg ∧ (0 ≤ availBytes → p.SameZeros p') := by
  rw [shrinkConcurrency] at h
  split at h
  · next hmore =>
    obtain ⟨shrinked, -, hpure⟩ := bind_ok h
    obtain rfl := Except.ok.inj hpure
    have hpos : 0 < max shrinked 1 := lt_of_lt_of_le (by decide) (le_max_right _ _)
    refine ⟨⟨hp.chunkSize, hpos.le, hp.ioDepth⟩, fun havail => ⟨Iff.rfl, ?_, Iff.rfl⟩⟩
    refine iff_of_false hpos.ne' fun hzero => ?_
    rw [p.bytes_eq_mul_concurrency, hzero, zero_mul] at hmore
    exact absurd havail (not_le.mpr hmore)
  · obtain rfl := Except.ok.inj h
    exact ⟨hp, fun _ => .refl p⟩

theorem IOParams.SameZeros.trans {p'' : IOParams} (h : p.SameZeros p') (h' : p'.SameZeros p'') :
    p.SameZeros p'' :=
  ⟨h'.chunkSize.trans h.chunkSize, h'.concurrency.trans h.concurrency, h'.ioDepth.trans h.ioDepth⟩

/-- A factor of zero is accepted as it is, and no other becomes zero. -/
theorem shrink_ok (hp : p.Nonneg) (h : shrink worldSize availBytes p = .ok p') :
    p'.Nonneg ∧ p.SameZeros p' := by
  obtain ⟨p₁, hdepth, h⟩ := bind_ok h
  obtain ⟨p₂, hconcurrency, h⟩ := bind_ok h
  split at h
  · cases h
  next hfits =>
  obtain rfl := Except.ok.inj h
  obtain ⟨hp₁, hzeros₁⟩ := shrinkIODepth_ok hp hdepth
  obtain ⟨hp₂, hzeros₂⟩ := shrinkConcurrency_ok hp₁ hconcurrency
  have havail : 0 ≤ availBytes := (hp₂.bytes_nonneg worldSize).trans (not_lt.mp hfits)
  exact ⟨hp₂, (hzeros₁ havail).trans (hzeros₂ havail)⟩

/-! ## Settings and arguments -/

theorem getD_eq_zero_iff {o : Option ℤ} {d : ℤ} (hd : 0 < d) : o.getD d = 0 ↔ o = some 0 := by
  cases o with
  | none => exact iff_of_false hd.ne' (by simp)
  | some x => simp

theorem getD_nonneg {o : Option ℤ} {d : ℤ} (hd : 0 < d) (ho : ∀ x ∈ o, 0 ≤ x) : 0 ≤ o.getD d := by
  cases o with
  | none => exact hd.le
  | some x => exact ho x rfl

/-- The parameters are zero where the settings are: the defaults are positive. -/
structure Settings.Zeros (s : Settings) (p : IOParams) : Prop where
  chunkSize : p.chunkSize = 0 ↔ s.chunkSize = some 0
  concurrency : p.concurrency = 0 ↔ s.concurrency = some 0
  ioDepth : p.ioDepth = 0 ↔ s.ioDepth = some 0

theorem Settings.filled (hs : s.Nonneg) {chunkSize concurrency ioDepth : ℤ} (hchunk : 0 < chunkSize)
    (hconcurrency : 0 < concurrency) (hdepth : 0 < ioDepth) :
    IOParams.Nonneg ⟨s.chunkSize.getD chunkSize, s.concurrency.getD concurrency,
        s.ioDepth.getD ioDepth⟩ ∧
      s.Zeros ⟨s.chunkSize.getD chunkSize, s.concurrency.getD concurrency,
        s.ioDepth.getD ioDepth⟩ :=
  ⟨⟨getD_nonneg hchunk hs.chunkSize, getD_nonneg hconcurrency hs.concurrency,
      getD_nonneg hdepth hs.ioDepth⟩,
    ⟨getD_eq_zero_iff hchunk, getD_eq_zero_iff hconcurrency, getD_eq_zero_iff hdepth⟩⟩

theorem requestedParams_ok {m : Member} {b : Backend} (hs : s.Nonneg)
    (h : requestedParams s files worldSize m = .ok (b, p)) : p.Nonneg ∧ s.Zeros p := by
  have hone : ∀ n : ℕ, (0 : ℤ) < (max n 1 : ℕ) := fun n =>
    Int.natCast_pos.mpr (lt_of_lt_of_le Nat.one_pos (le_max_right n 1))
  have hthree : ∀ n : ℕ, (0 : ℤ) < (max n 3 : ℕ) := fun n =>
    Int.natCast_pos.mpr (lt_of_lt_of_le (by decide) (le_max_right n 3))
  obtain ⟨candidates, -, h⟩ := bind_ok h
  simp only at h
  split at h
  · cases h
  split at h
  · obtain ⟨backend, -, hpure⟩ := bind_ok h
    cases hpure
    exact s.filled hs (by decide) (hone _) (by decide)
  · obtain ⟨backend, -, hpure⟩ := bind_ok h
    cases hpure
    unfold diskParams
    split
    · exact s.filled hs (by decide) (hone _) (by decide)
    · exact s.filled hs (by decide) (by decide) (hthree _)

/-- Every tensor fits in the buffer the frontend asks for. -/
theorem determineBufferSize_room {bufferSize : Option ℤ} {sizes : List ℕ} {b : ℤ}
    (h : determineBufferSize bufferSize sizes worldSize p = .ok b) :
    ∀ size ∈ sizes, (size : ℤ) ≤ b := by
  intro size hsize
  cases bufferSize with
  | none =>
      obtain ⟨recommended, hrecommended, hpure⟩ := bind_ok h
      obtain rfl := Except.ok.inj hpure
      cases sizes with
      | nil => cases hsize
      | cons first sizes =>
          obtain ⟨least, hok, -⟩ := recommendedBufferSize_isLeast first sizes
            (show overlapFactor ≤ 1 by norm_num [overlapFactor])
          obtain rfl := Except.ok.inj (hok.symm.trans hrecommended)
          have hmax := (isGreatest_foldl_max first sizes).2 hsize
          exact (Int.ofNat_le.mpr (hmax.trans (le_max_right _ _))).trans (le_max_left _ _)
  | some bufferSize =>
      rw [determineBufferSize] at h
      cases hmax : sizes.max? with
      | none =>
          rw [hmax] at h
          cases h
      | some largest =>
          simp only [hmax] at h
          obtain rfl := Except.ok.inj h
          have hle : size ≤ largest := (List.max?_le_iff hmax).mp le_rfl size hsize
          have hsum : size ≤ sizes.sum := List.single_le_sum (by simp) size hsize
          split <;> split <;> omega

theorem safeOpen_accepted {args env : Settings} {members : List Member} {m : Member} {o : SafeOpen}
    (hs : (args.orElse env).Nonneg) (h : safeOpen args env files members m = .ok o) :
    o.params.Nonneg ∧ (args.orElse env).Zeros o.params ∧
      ∀ size ∈ tensorSizes files.tensorOffsets, (size : ℤ) ≤ o.bufferSize := by
  obtain ⟨⟨backend, requested⟩, hrequested, hshrink, hbuffer⟩ := safeOpen_ok h
  obtain ⟨hnonneg, hzeros⟩ := requestedParams_ok hs hrequested
  obtain ⟨hnonneg', hsame⟩ := shrink_ok hnonneg hshrink
  exact ⟨hnonneg', ⟨hsame.chunkSize.trans hzeros.chunkSize,
    hsame.concurrency.trans hzeros.concurrency, hsame.ioDepth.trans hzeros.ioDepth⟩,
    determineBufferSize_room hbuffer⟩

theorem toSize_eq {x : ℤ} {n : ℕ} (h : toSize x = some n) : (n : ℤ) = x := by
  rw [toSize] at h
  split at h
  · next hx =>
    obtain rfl := Option.some.inj h
    exact Int.toNat_of_nonneg hx
  · cases h

/-- What the loader is opened with. -/
structure SafeOpen.Opens (files : Files) (worldSize : ℕ) (o : SafeOpen) (a : OpenArgs) : Prop where
  worldSize : a.worldSize = worldSize
  bufferSize : (a.bufferSize : ℤ) = o.bufferSize
  chunkSize : (a.chunkSize : ℤ) = o.params.chunkSize
  numThreads : (a.numThreads : ℤ) = o.params.concurrency
  ioDepth : (a.ioDepth : ℤ) = o.params.ioDepth
  backend : a.backend = o.backend
  tensorOffsets : a.tensorOffsets = files.tensorOffsets

theorem openArgs_opens {o : SafeOpen} {rank : ℕ} {a : OpenArgs}
    (h : o.openArgs files rank worldSize = some a) : o.Opens files worldSize a := by
  obtain ⟨bufferSize, hbuffer, h⟩ := Option.bind_eq_some_iff.mp h
  obtain ⟨chunkSize, hchunk, h⟩ := Option.bind_eq_some_iff.mp h
  obtain ⟨numThreads, hthreads, h⟩ := Option.bind_eq_some_iff.mp h
  obtain ⟨ioDepth, hdepth, h⟩ := Option.bind_eq_some_iff.mp h
  cases h
  exact ⟨rfl, toSize_eq hbuffer, toSize_eq hchunk, toSize_eq hthreads, toSize_eq hdepth, rfl, rfl⟩

end

/-! ## Positive sizes -/

section
variable {g : Geometry} {offs : List (ℕ × ℕ)}

end

/-! ## The loader the frontend opens -/

section
variable {pageSize : ℕ} {a : OpenArgs}

end

section
variable {args env : Settings} {files : Files} {members : List Member} {m : Member}

section
variable {pageSize rank : ℕ} {limits : OpenLimits} {useInternalMemoryRegister : Bool}
  {cached : List HostBuffer}

end

end

end InstantTensor
