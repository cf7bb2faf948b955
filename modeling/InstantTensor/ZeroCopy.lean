/-
# `InstantTensor.ZeroCopy` — when zero-copy views survive the load

With `copy=False` the tensors handed out are views of the device buffer, and the
frontend warns when the buffer is smaller than the tensors together.  A view is lost when a
chunk behind the tensor's last one is written over it, padding included.  Within a lap
that cannot happen (`Site.chunk_from`, `Site.lapAfter_dev`), so the views are intact
exactly when no segment of a later lap meets a tensor of an earlier one
(`LapsApart`, `Load.viewsIntact_iff`) — in particular when there is only one lap
(`lapsApart_of_single`), which there is if the buffer has room for the tensors and, for each
file, for three kinds of padding (`Load.plan_single`).

The warning compares sums of tensor sizes.  The device space a file takes is its
tensors, its header's page remainder, a realignment of up to 31 bytes and the padding to a
world unit, and the buffer is enlarged by three such units however many files
there are.  So without a warning up to three files are safe (`Load.viewsIntact_of_few`), and
a load of many small files still makes a second lap (`sevenFiles_overwritten`).
-/
import InstantTensor.Contents
import InstantTensor.Capacity

namespace InstantTensor

/-- The test in front of the warning of `safe_open`. -/
def overwriteWarning (copy : Bool) (bufferSize totalTensorSize : ℕ) : Bool :=
  !copy && bufferSize < totalTensorSize

/-- `overwriteWarning` for the zero-copy reading of a load. -/
def Load.warns (l : Load) : Bool :=
  overwriteWarning false l.args.bufferSize (tensorSizes l.args.tensorOffsets).sum

/-- No chunk behind a tensor's last one is written over the tensor. -/
def Load.ViewsIntact (l : Load) : Prop :=
  ∀ t ∈ l.layout.tensors, ∀ (j : ℕ) (c : Chunk), l.layout.chunks[j]? = some c →
    t.lastChunkId < j →
    ¬ Meets t.deviceBufferOffset (t.deviceBufferOffset + t.size)
      c.deviceBufferOffset (c.devStop l.geometry)

/-- The segment meets none of the other segment's tensors. -/
def Segment.Spares (g : Geometry) (s' s : Segment) : Prop :=
  ∀ e ∈ s.extents,
    ¬ Meets (s.dev + (e.1 - s.base)) (s.dev + (e.2 - s.base)) s'.dev (s'.devStop g)

/-- No segment of a lap meets a tensor of an earlier lap. -/
def LapsApart (g : Geometry) (laps : List Lap) : Prop :=
  laps.Pairwise fun lap lap' => ∀ s ∈ lap, ∀ s' ∈ lap', s'.Spares g s

instance (g : Geometry) (s' s : Segment) : Decidable (s'.Spares g s) :=
  inferInstanceAs (Decidable (∀ e ∈ s.extents, ¬ Meets _ _ _ _))

instance (g : Geometry) (laps : List Lap) : Decidable (LapsApart g laps) :=
  inferInstanceAs (Decidable (laps.Pairwise fun lap lap' => ∀ s ∈ lap, ∀ s' ∈ lap', s'.Spares g s))

section
variable {g : Geometry}

/-- When everything fits in one pass over the buffer, nothing is overwritten. -/
theorem lapsApart_of_single {laps : List Lap} (h : laps.length ≤ 1) : LapsApart g laps := by
  match laps, h with
  | [], _ => exact List.Pairwise.nil
  | [lap], _ => exact List.pairwise_singleton _ _

/-- The segment of a site is spared by the segments of later laps. -/
theorem LapsApart.spares {σ : Site} (h : LapsApart g σ.laps) {lap : Lap} (hlap : lap ∈ σ.after)
    {s : Segment} (hs : s ∈ lap) : s.Spares g σ.seg :=
  (List.pairwise_cons.mp (List.pairwise_append.mp h).2.1).1 lap hlap σ.seg (by simp) s hs

/-- Where the device range of a tensor ends. -/
theorem Site.tensor_range (σ : Site) (h : σ.seg.Sound g) {e : ℕ × ℕ} (he : e ∈ σ.seg.extents) :
    (σ.tensor g 0 e).deviceBufferOffset + (σ.tensor g 0 e).size
      = σ.seg.dev + (e.2 - σ.seg.base) := by
  have := h.extents e he
  simp only [Site.tensor, TensorMetadate.settle, Segment.entry]
  omega

/-- A chunk that meets a tensor and comes behind its last chunk belongs to a later lap. -/
theorem Site.overwriter_later (hg : g.WF) {σ : Site}
    (hlap : Lap.Sound g (σ.lapBefore ++ σ.seg :: σ.lapAfter)) {e : ℕ × ℕ} (he : e ∈ σ.seg.extents)
    {j : ℕ} {c : Chunk} (hj : (settle g 0 σ.laps).chunks[j]? = some c)
    (hlast : σ.first g + (e.2 - σ.seg.base - 1) / g.worldChunkSize < j)
    (hmeets : Meets (σ.seg.dev + (e.1 - σ.seg.base)) (σ.seg.dev + (e.2 - σ.seg.base))
      c.deviceBufferOffset (c.devStop g)) :
    ∃ lap ∈ σ.after, ∃ s ∈ lap, c ∈ s.chunks g := by
  have hextent := (hlap.segment σ.seg (by simp)).extents e he
  obtain ⟨a, hlo, hhi, hlo', -⟩ := meets_iff.mp hmeets
  rcases σ.chunk_from hg hj (Nat.le_of_add_right_le (Nat.le_of_lt hlast)) with
    ⟨q, -, hjq, rfl⟩ | hc | ⟨-, hc⟩
  · -- a later piece of the segment starts where the tensor has ended
    exfalso
    have hlt := Nat.lt_div_mul_add hg.chunk_pos (a := e.2 - σ.seg.base - 1)
    have hpiece : ((e.2 - σ.seg.base - 1) / g.worldChunkSize + 1) * g.worldChunkSize
        ≤ q * g.worldChunkSize := Nat.mul_le_mul_right _ (by omega)
    rw [Nat.succ_mul] at hpiece
    simp only [Segment.chunk, Segment.full] at hlo'
    omega
  · exfalso
    have hbehind := σ.lapAfter_dev hg hlap hc
    have hpad : σ.seg.len ≤ roundUp σ.seg.len g.worldChunkAlignment := le_roundUp hg.world_pos
    simp only [Segment.devStop, Segment.len] at hbehind hpad
    omega
  · obtain ⟨lap, hl, hc⟩ := List.mem_flatMap.mp (List.mem_of_getElem? hc)
    exact ⟨lap, hl, List.mem_flatMap.mp hc⟩

/-- The chunks of a later lap come behind every tensor of the site's segment that has bytes. -/
theorem Site.later_index (hg : g.WF) {σ : Site} {e : ℕ × ℕ}
    (hpos : σ.seg.base < e.2) (hstop : e.2 ≤ σ.seg.stop) {lap : Lap} (hlap : lap ∈ σ.after)
    {s : Segment} (hs : s ∈ lap) {c : Chunk} (hc : c ∈ s.chunks g) :
    ∃ j : ℕ, (settle g 0 σ.laps).chunks[j]? = some c ∧
      σ.first g + (e.2 - σ.seg.base - 1) / g.worldChunkSize < j := by
  have hmem : c ∈ σ.after.flatMap (Lap.chunks g) :=
    List.mem_flatMap.mpr ⟨lap, hlap, List.mem_flatMap.mpr ⟨s, hs, hc⟩⟩
  obtain ⟨i, hi⟩ := List.mem_iff_getElem?.mp hmem
  have hpiece : (e.2 - σ.seg.base - 1) / g.worldChunkSize < (σ.seg.chunks g).length := by
    rw [Segment.chunks_length, divCeil_of_pos hg.chunk_pos (by unfold Segment.len; omega)]
    refine Nat.lt_succ_of_le (Nat.div_le_div_right ?_)
    unfold Segment.len
    omega
  refine ⟨σ.next g + i, ?_, by unfold Site.next; omega⟩
  have hlen : (σ.before.flatMap (Lap.chunks g) ++ σ.lapBefore.chunks g).length = σ.first g :=
    List.length_append
  rw [σ.chunks_eq, List.getElem?_append_right (by unfold Site.next; omega), hlen,
    List.getElem?_append_right (by unfold Site.next; omega),
    List.getElem?_append_right (by unfold Site.next; omega), ← hi]
  congr 1
  unfold Site.next
  omega

/-- Pairs of laps of a plan are sites with a later lap. -/
theorem pairwise_of_sites {R : Segment → Segment → Prop} {laps : List Lap}
    (h : ∀ σ : Site, σ.laps = laps → ∀ lap ∈ σ.after, ∀ s ∈ lap, R σ.seg s) :
    laps.Pairwise fun lap lap' => ∀ s ∈ lap, ∀ s' ∈ lap', R s s' := by
  induction laps with
  | nil => exact List.Pairwise.nil
  | cons lap laps ih =>
      refine List.pairwise_cons.mpr ⟨?_, ?_⟩
      · intro lap' hlap' s hs s' hs'
        obtain ⟨lapBefore, lapAfter, rfl⟩ := List.append_of_mem hs
        exact h ⟨[], lapBefore, s, lapAfter, laps⟩ rfl lap' hlap' s' hs'
      · refine ih ?_
        intro σ hσ lap' hlap' s hs
        exact h { σ with before := lap :: σ.before } (by rw [← hσ]; rfl) lap' hlap' s hs

end

theorem Load.viewsIntact_iff_lapsApart (l : Load) :
    l.ViewsIntact ↔ LapsApart l.geometry l.plan := by
  have hg := l.wf
  rw [ViewsIntact, l.layout_eq]
  constructor
  · intro hintact
    refine pairwise_of_sites (R := fun s s' => s'.Spares l.geometry s)
      fun σ hσ lap hlap s hs e he hmeets => ?_
    have hsound := (l.plan_sound _ (hσ ▸ σ.mem_plan)).segment σ.seg (by simp)
    have hextent := hsound.extents e he
    obtain ⟨a, hlo, hhi, hlo', hhi'⟩ := meets_iff.mp hmeets
    obtain ⟨c, hc, hcover⟩ := Segment.covered hg (s := s) (x := a - s.dev) (by
      simp only [Segment.devStop] at hhi'
      omega)
    rw [Nat.add_sub_cancel' hlo'] at hcover
    obtain ⟨j, hj, hlast⟩ := σ.later_index hg (by omega) hextent.2.2 hlap hs hc
    refine hintact (σ.tensor l.geometry 0 e) (mem_settle_tensors.mpr ⟨σ, hσ, e, he, rfl⟩) j c
      (hσ ▸ hj) ?_ ?_
    · simp only [Site.tensor, TensorMetadate.settle, Segment.entry, Nat.zero_add]
      exact_mod_cast hlast
    · exact meets_iff.mpr ⟨a, hlo, Nat.lt_of_lt_of_eq hhi (σ.tensor_range hsound he).symm, hcover⟩
  · intro hapart t ht j c hj hlast hmeets
    obtain ⟨σ, hσ, e, he, rfl⟩ := mem_settle_tensors.mp ht
    have hlap := l.plan_sound _ (hσ ▸ σ.mem_plan)
    have hsound := hlap.segment σ.seg (by simp)
    have hmeets' : Meets (σ.seg.dev + (e.1 - σ.seg.base)) (σ.seg.dev + (e.2 - σ.seg.base))
        c.deviceBufferOffset (c.devStop l.geometry) :=
      hmeets.mono (Nat.le_of_eq (σ.tensor_range hsound he)) (Nat.le_refl _)
    have hlast' : σ.first l.geometry + (e.2 - σ.seg.base - 1) / l.geometry.worldChunkSize < j := by
      simp only [Site.tensor, TensorMetadate.settle, Segment.entry, Nat.zero_add] at hlast
      exact_mod_cast hlast
    obtain ⟨lap, hlater, s, hs, hc⟩ :=
      σ.overwriter_later hg hlap he (hσ ▸ hj) hlast' hmeets'
    obtain ⟨q, hq, rfl⟩ := (Segment.mem_chunks hg).mp hc
    refine LapsApart.spares (hσ ▸ hapart) hlater hs e he ?_
    have hdev := Segment.le_chunk_dev hg hc
    have hstop := Segment.chunk_devStop_le hg hq
    obtain ⟨a, hlo, hhi, hlo', hhi'⟩ := meets_iff.mp hmeets'
    exact meets_iff.mpr ⟨a, hlo, hhi, by omega, by omega⟩

/-- **No warning means no overwrite exactly when there is a warning or the laps stay
apart.** -/
theorem Load.viewsIntact_iff (l : Load) :
    (l.warns = false → l.ViewsIntact) ↔ l.warns = true ∨ LapsApart l.geometry l.plan := by
  rw [l.viewsIntact_iff_lapsApart]
  cases l.warns <;> simp

/-- Seven files of one tensor of ten bytes each, behind a header of 100 bytes: 70 bytes of
tensors, and seven world units of buffer. -/
def sevenFiles : Load := Load.of 4096 {
    rank := 0
    worldSize := 1
    bufferSize := 70
    chunkSize := 4096
    numThreads := 1
    ioDepth := 1
    backend := .CUFILE
    tensorOffsets := (List.range 7).flatMap fun f => [(f, 100), (f, 110)] } (by decide)

/-- The seventh file is read over the tensor of the first. -/
theorem sevenFiles_overwritten : ¬ ∀ l : Load, l.warns = false → l.ViewsIntact := by
  intro h
  have hintact := h sevenFiles (by decide)
  have happart : ¬ LapsApart sevenFiles.geometry sevenFiles.plan := by decide +kernel
  exact happart ((Load.viewsIntact_iff_lapsApart sevenFiles).mp hintact)

/-! ## Loads of one pass -/

/-- How many files the offsets belong to. -/
def fileCount : List (ℕ × ℕ) → ℕ
  | [] => 0
  | [_] => 1
  | (f, _) :: (f', o') :: rest =>
      if f = f' then fileCount ((f', o') :: rest) else fileCount ((f', o') :: rest) + 1

/-- What a file may take of the buffer besides its tensors: the alignment of its first tensor, the
rest of its header in front of that, and the padding to a world unit.  The buffer is enlarged by
three of them. -/
def Geometry.fileRoom (g : Geometry) : ℕ :=
  firstTensorAlignment + g.threadAlignment + g.worldChunkAlignment

theorem fileCount_pos (e : ℕ × ℕ) (rest : List (ℕ × ℕ)) : 0 < fileCount (e :: rest) := by
  induction rest generalizing e with
  | nil => exact Nat.one_pos
  | cons e' rest ih =>
      rw [fileCount]
      split
      · exact ih e'
      · exact Nat.succ_pos _

section
variable {g : Geometry}

/-- Where there is room for the rest of the tensors and files no tensor returns to the start of the
buffer.  `level` is where the segment would start without its realignment. -/
theorem planFrom_single (hg : g.WF) (hpage : firstTensorAlignment ∣ g.threadAlignment)
    (rest : List (ℕ × ℕ)) {f o level : ℕ} {filled : Bool} {s : Segment} {closed : Lap}
    (hv : OffsetsFrom f o filled rest) (hstop : s.stop = o) (hbase : s.base ≤ o)
    (haligned : firstTensorAlignment ∣ level) (hlevel : s.dev ≤ level)
    (hroom : level + s.len + g.worldChunkAlignment + (tensorSizes ((f, o) :: rest)).sum
      + fileCount ((f, o) :: rest) * g.fileRoom ≤ g.bufferSize + g.fileRoom) :
    (planFrom g ((f, o) :: rest) s closed).length = 1 := by
  induction rest generalizing f o level filled s closed with
  | nil => rfl
  | cons e rest ih =>
      obtain ⟨f', o'⟩ := e
      rw [tensorSizes, fileCount] at hroom
      have hlen : s.len = o - s.base := by rw [Segment.len, hstop]
      rcases hv with ⟨rfl, ho, hv⟩ | ⟨-, rfl, hv⟩
      · rw [if_pos rfl, if_pos rfl, List.sum_cons] at hroom
        have hpush : (s.push o o').len = o' - s.base := rfl
        have hpad := roundUp_lt hg.world_pos (x := (s.push o o').len)
        have hfits : (s.push o o').devStop g ≤ g.bufferSize := by
          have hfiles : g.fileRoom ≤ fileCount ((f', o') :: rest) * g.fileRoom :=
            Nat.le_mul_of_pos_left _ (fileCount_pos _ _)
          change s.dev + _ ≤ _
          omega
        rw [planFrom, if_neg (by simp), if_pos hfits]
        exact ih hv rfl (hbase.trans ho) haligned hlevel (by omega)
      · rw [if_neg (by omega), if_neg (by omega), Nat.succ_mul] at hroom
        rw [planFrom, if_pos (by omega)]
        have hpad := roundUp_lt hg.world_pos (x := s.len)
        have hrest := Nat.mod_lt o' hg.thread_pos
        have hfirst := roundDown_add_mod o' g.threadAlignment
        have hopened : (Segment.opened g (f + 1) o' (s.devStop g)).len
            = o' - roundDown o' g.threadAlignment := rfl
        have hunit : firstTensorAlignment ∣ level + roundUp s.len g.worldChunkAlignment :=
          Nat.dvd_add haligned ((hpage.trans hg.thread_dvd).trans (dvd_roundUp _ _))
        have hdev : roundUp (s.devStop g) firstTensorAlignment
            ≤ level + roundUp s.len g.worldChunkAlignment :=
          roundUp_le_of_dvd (by decide) (Nat.add_le_add_right hlevel _) hunit
        refine ih hv rfl (roundDown_le _ _) (Nat.dvd_add hunit (Nat.dvd_refl _)) ?_ ?_
        · change roundUp (s.devStop g) firstTensorAlignment + firstTensorAlignment - _ ≤ _
          omega
        · unfold Geometry.fileRoom at hroom ⊢
          omega

end

/-- A load makes one pass if its buffer has room for the tensors and for the paddings of each file. -/
theorem Load.plan_single (l : Load) (hpage : firstTensorAlignment ∣ l.pageSize)
    (hroom : (tensorSizes l.args.tensorOffsets).sum
      + fileCount l.args.tensorOffsets * l.geometry.fileRoom ≤ l.geometry.bufferSize) :
    l.plan.length = 1 := by
  have hg := l.wf
  have hvalid := l.valid
  unfold Load.plan
  generalize l.args.tensorOffsets = offs at hvalid hroom
  match offs, hvalid with
  | (f, o) :: rest, ⟨_, hv⟩ =>
      have hrest := Nat.mod_lt o hg.thread_pos
      have hfirst := roundDown_add_mod o l.geometry.threadAlignment
      have hopened : (Segment.opened l.geometry f o 0).len
          = o - roundDown o l.geometry.threadAlignment := rfl
      refine planFrom_single hg hpage rest hv rfl (roundDown_le _ _) (Nat.dvd_refl _)
        (Segment.opened_zero_dev_le f o) ?_
      unfold Geometry.fileRoom at hroom ⊢
      omega

/-- Then the views last. -/
theorem Load.viewsIntact_of_fits (l : Load) (hpage : firstTensorAlignment ∣ l.pageSize)
    (hroom : (tensorSizes l.args.tensorOffsets).sum
      + fileCount l.args.tensorOffsets * l.geometry.fileRoom ≤ l.geometry.bufferSize) :
    l.ViewsIntact :=
  l.viewsIntact_iff_lapsApart.mpr (lapsApart_of_single (l.plan_single hpage hroom).le)

/-- **Up to three files the warning is exact enough: where there is none no view is lost.** -/
theorem Load.viewsIntact_of_few (l : Load) (hpage : firstTensorAlignment ∣ l.pageSize)
    (hfiles : fileCount l.args.tensorOffsets ≤ 3) (hwarns : l.warns = false) : l.ViewsIntact := by
  refine l.viewsIntact_of_fits hpage ?_
  have htotal : (tensorSizes l.args.tensorOffsets).sum ≤ l.args.bufferSize := by
    simpa [Load.warns, overwriteWarning] using hwarns
  have hpadded : l.args.bufferSize + 3 * l.geometry.fileRoom ≤ l.geometry.bufferSize :=
    le_initBuffer_bufferSize l.pageSize l.args
  have hpaddings := Nat.mul_le_mul_right l.geometry.fileRoom hfiles
  omega

/-- Three files of one tensor of ten bytes each, behind headers of 100 bytes. -/
def threeFiles : Load := Load.of 4096 {
    rank := 0
    worldSize := 1
    bufferSize := 30
    chunkSize := 4096
    numThreads := 1
    ioDepth := 1
    backend := .CUFILE
    tensorOffsets := (List.range 3).flatMap fun f => [(f, 100), (f, 110)] } (by decide)

theorem threeFiles_intact : threeFiles.ViewsIntact :=
  threeFiles.viewsIntact_of_few (by decide) (by decide) (by decide)

/-- A fourth file may be too much: four tensors of two bytes, each behind a page but a byte. -/
def fourFiles : Load := Load.of 4096 {
    rank := 0
    worldSize := 1
    bufferSize := 8
    chunkSize := 4096
    numThreads := 1
    ioDepth := 1
    backend := .CUFILE
    tensorOffsets := (List.range 4).flatMap fun f => [(f, 4095), (f, 4097)] } (by decide)

example : fourFiles.warns = false ∧ ¬ LapsApart fourFiles.geometry fourFiles.plan := by
  decide +kernel

end InstantTensor
