/-
# `InstantTensor.Sites` — where the entries of a layout come from

A settled plan is two flat vectors.  To say something about an entry one needs the
segment it came from and what lies around that segment; a `Site` is a segment of a plan
with the laps and segments on both sides.  Every tensor entry is `Site.tensor` of an
extent of its site (`mem_settle_tensors`), every chunk is a piece of its site's segment
(`mem_settle_chunks`), and the chunk vector splits at a site into what is written before
the segment, the segment, the rest of the lap and the later laps (`Site.chunks_eq`).

`Layout.Sound` collects what the loader, which only sees the two vectors, relies on:
above all that prefetch chunks are monotone in the tensor index, although two loops fill
them in one lap late.
-/
import InstantTensor.Load

namespace InstantTensor

/-- A segment of a plan, with what surrounds it. -/
structure Site where
  before : List Lap
  lapBefore : Lap
  seg : Segment
  lapAfter : Lap
  after : List Lap
deriving DecidableEq, Repr

def Site.laps (σ : Site) : List Lap :=
  σ.before ++ (σ.lapBefore ++ σ.seg :: σ.lapAfter) :: σ.after

section
variable (g : Geometry)

/-! ## Chunks and tensors at a site -/

/-- How many chunks are written before the segment. -/
def Site.first (σ : Site) : ℕ :=
  (σ.before.flatMap (Lap.chunks g)).length + (σ.lapBefore.chunks g).length

/-- The first chunk of the next lap. -/
def Site.next (σ : Site) : ℕ :=
  σ.first g + (σ.seg.chunks g).length + (σ.lapAfter.chunks g).length

/-- The chunks of the next lap, none if there is no next lap. -/
def Site.nextChunks (σ : Site) : List Chunk := Lap.chunks g (σ.after.headD [])

/-- The entry of a tensor of a segment whose first chunk is `n`. -/
def Segment.entry (n : ℕ) (s : Segment) (e : ℕ × ℕ) : TensorMetadate where
  size := e.2 - e.1
  fileIndex := s.fileIndex
  fileOffset := e.1
  deviceBufferOffset := s.dev + (e.1 - s.base)
  lastChunkId := (n + (e.2 - s.base - 1) / g.worldChunkSize : ℕ)
  prefetchChunkId := 0

/-- The entry of extent `e` at a site, in a plan whose first chunk is `n`. -/
def Site.tensor (n : ℕ) (σ : Site) (e : ℕ × ℕ) : TensorMetadate :=
  (σ.seg.entry g (n + σ.first g) e).settle g (n + σ.next g) (σ.nextChunks g)

end

section
variable {g : Geometry}

theorem Segment.tensors_eq (n : ℕ) (s : Segment) :
    s.tensors g n = s.extents.map (s.entry g n) := rfl

theorem Lap.chunks_cons (s : Segment) (lap : Lap) :
    Lap.chunks g (s :: lap) = s.chunks g ++ lap.chunks g :=
  List.flatMap_cons ..

theorem Segment.chunks_length (s : Segment) :
    (s.chunks g).length = divCeil s.len g.worldChunkSize := by
  rw [Segment.chunks, List.length_map, List.length_range]

theorem Segment.mem_chunks (hg : g.WF) {s : Segment} {c : Chunk} :
    c ∈ s.chunks g ↔ ∃ q, q * g.worldChunkSize < s.len ∧ c = s.chunk g q := by
  simp only [Segment.chunks, List.mem_map, List.mem_range, lt_divCeil_iff hg.chunk_pos, eq_comm]

theorem settle_chunks (n : ℕ) (laps : List Lap) :
    (settle g n laps).chunks = laps.flatMap (Lap.chunks g) := by
  induction laps generalizing n with
  | nil => rfl
  | cons lap laps ih => rw [settle, List.flatMap_cons, ih]

theorem Site.chunks_eq (σ : Site) (n : ℕ) :
    (settle g n σ.laps).chunks
      = (σ.before.flatMap (Lap.chunks g) ++ σ.lapBefore.chunks g)
        ++ (σ.seg.chunks g ++ (σ.lapAfter.chunks g ++ σ.after.flatMap (Lap.chunks g))) := by
  rw [settle_chunks, Site.laps, List.flatMap_append, List.flatMap_cons, Lap.chunks_append,
    Lap.chunks_cons]
  simp only [List.append_assoc]

theorem Lap.mem_tensors {u : TensorMetadate} {lap : Lap} {n : ℕ} : u ∈ Lap.tensors g n lap ↔
    ∃ lapBefore s lapAfter, lap = lapBefore ++ s :: lapAfter ∧
      ∃ e ∈ s.extents, u = s.entry g (n + (Lap.chunks g lapBefore).length) e := by
  induction lap generalizing n with
  | nil => simp [Lap.tensors]
  | cons s lap ih =>
      rw [Lap.tensors, List.mem_append, ih, Segment.tensors_eq, List.mem_map]
      constructor
      · rintro (⟨e, he, rfl⟩ | ⟨lapBefore, r, lapAfter, rfl, e, he, rfl⟩)
        · exact ⟨[], s, lap, rfl, e, he, rfl⟩
        · refine ⟨s :: lapBefore, r, lapAfter, rfl, e, he, ?_⟩
          rw [Lap.chunks_cons, List.length_append, Nat.add_assoc]
      · rintro ⟨lapBefore, r, lapAfter, heq, e, he, rfl⟩
        cases lapBefore with
        | nil =>
            cases heq
            exact .inl ⟨e, he, rfl⟩
        | cons r' lapBefore =>
            cases heq
            refine .inr ⟨lapBefore, r, lapAfter, rfl, e, he, ?_⟩
            rw [Lap.chunks_cons, List.length_append, Nat.add_assoc]

theorem mem_settle_tensors {t : TensorMetadate} {laps : List Lap} {n : ℕ} :
    t ∈ (settle g n laps).tensors ↔
      ∃ σ : Site, σ.laps = laps ∧ ∃ e ∈ σ.seg.extents, t = σ.tensor g n e := by
  induction laps generalizing n with
  | nil => simp [settle, Site.laps]
  | cons lap laps ih =>
      simp only [settle, List.mem_append, ih, List.mem_map, Lap.mem_tensors]
      constructor
      · rintro (⟨u, ⟨lapBefore, s, lapAfter, rfl, e, he, rfl⟩, rfl⟩ | ⟨σ, rfl, e, he, rfl⟩)
        · refine ⟨⟨[], lapBefore, s, lapAfter, laps⟩, rfl, e, he, ?_⟩
          simp [Site.tensor, Site.first, Site.next, Site.nextChunks, Lap.chunks_append,
            Lap.chunks_cons, Nat.add_assoc]
        · refine ⟨{ σ with before := lap :: σ.before }, rfl, e, he, ?_⟩
          simp [Site.tensor, Site.first, Site.next, Site.nextChunks, Nat.add_assoc]
      · rintro ⟨⟨before, lapBefore, s, lapAfter, after⟩, heq, e, he, rfl⟩
        cases before with
        | nil =>
            cases heq
            refine .inl ⟨_, ⟨lapBefore, s, lapAfter, rfl, e, he, rfl⟩, ?_⟩
            simp [Site.tensor, Site.first, Site.next, Site.nextChunks, Lap.chunks_append,
              Lap.chunks_cons, Nat.add_assoc]
        | cons lap' before =>
            cases heq
            refine .inr ⟨⟨before, lapBefore, s, lapAfter, after⟩, rfl, e, he, ?_⟩
            simp [Site.tensor, Site.first, Site.next, Site.nextChunks, Nat.add_assoc]

theorem mem_settle_chunks (hg : g.WF) {laps : List Lap} {n : ℕ} {c : Chunk} :
    c ∈ (settle g n laps).chunks ↔
      ∃ lap ∈ laps, ∃ s ∈ lap, ∃ q, q * g.worldChunkSize < s.len ∧ c = s.chunk g q := by
  simp only [settle_chunks, Lap.chunks, List.mem_flatMap, Segment.mem_chunks hg]

theorem Site.mem_plan (σ : Site) : σ.lapBefore ++ σ.seg :: σ.lapAfter ∈ σ.laps :=
  List.mem_append_right _ List.mem_cons_self

/-! ## The chunk vector around a site -/

theorem Site.chunk_at (hg : g.WF) (σ : Site) {q : ℕ} (hq : q * g.worldChunkSize < σ.seg.len) :
    (settle g 0 σ.laps).chunks[σ.first g + q]? = some (σ.seg.chunk g q) := by
  have hlt : q < (σ.seg.chunks g).length := by
    rw [Segment.chunks_length]
    exact (lt_divCeil_iff hg.chunk_pos).mpr hq
  have hpos : (σ.before.flatMap (Lap.chunks g) ++ σ.lapBefore.chunks g).length = σ.first g :=
    List.length_append
  rw [σ.chunks_eq, List.getElem?_append_right (by omega), hpos, Nat.add_sub_cancel_left,
    List.getElem?_append_left hlt]
  simp [Segment.chunks, (lt_divCeil_iff hg.chunk_pos).mpr hq]

/-- A chunk from the segment on is a later piece of it, one of the rest of the lap, or
one of a later lap. -/
theorem Site.chunk_from (hg : g.WF) (σ : Site) {j : ℕ} {c : Chunk}
    (hj : (settle g 0 σ.laps).chunks[j]? = some c) (hfirst : σ.first g ≤ j) :
    (∃ q, q * g.worldChunkSize < σ.seg.len ∧ j = σ.first g + q ∧ c = σ.seg.chunk g q) ∨
      c ∈ σ.lapAfter.chunks g ∨
      σ.next g ≤ j ∧ (σ.after.flatMap (Lap.chunks g))[j - σ.next g]? = some c := by
  have hpos : (σ.before.flatMap (Lap.chunks g) ++ σ.lapBefore.chunks g).length = σ.first g :=
    List.length_append
  rw [σ.chunks_eq, List.getElem?_append_right (by omega), hpos] at hj
  by_cases hseg : j - σ.first g < (σ.seg.chunks g).length
  · rw [List.getElem?_append_left hseg] at hj
    rw [Segment.chunks_length, lt_divCeil_iff hg.chunk_pos] at hseg
    refine .inl ⟨j - σ.first g, hseg, by omega, ?_⟩
    simpa [Segment.chunks, (lt_divCeil_iff hg.chunk_pos).mpr hseg, eq_comm] using hj
  · rw [List.getElem?_append_right (by omega)] at hj
    by_cases hlap : j - σ.first g - (σ.seg.chunks g).length < (σ.lapAfter.chunks g).length
    · rw [List.getElem?_append_left hlap] at hj
      exact .inr (.inl (List.mem_of_getElem? hj))
    · rw [List.getElem?_append_right (by omega)] at hj
      refine .inr (.inr ⟨by unfold Site.next; omega, ?_⟩)
      rw [← hj]
      congr 1
      unfold Site.next
      omega

/-- The chunks of the later laps begin with those of the next one. -/
theorem Site.flatMap_after (σ : Site) :
    σ.after.flatMap (Lap.chunks g) = σ.nextChunks g ++ σ.after.tail.flatMap (Lap.chunks g) := by
  unfold Site.nextChunks
  cases σ.after with
  | nil => rfl
  | cons lap after => rfl

/-! ## Device addresses -/

/-- A segment's tensors lie between its device offset and its padded end. -/
theorem Segment.Sound.entry_dev (hg : g.WF) {s : Segment} (h : s.Sound g) {e : ℕ × ℕ}
    (he : e ∈ s.extents) (n : ℕ) :
    s.dev ≤ (s.entry g n e).deviceBufferOffset ∧
      (s.entry g n e).deviceBufferOffset + (s.entry g n e).size ≤ s.devStop g := by
  obtain ⟨hbase, hle, hstop⟩ := h.extents e he
  have hpad : s.len ≤ roundUp s.len g.worldChunkAlignment := le_roundUp hg.world_pos
  simp only [Segment.entry, Segment.devStop]
  simp only [Segment.len] at hpad ⊢
  omega

/-- The tensors of a lap are listed in the order of their device addresses. -/
theorem Lap.Sound.sorted (hg : g.WF) {lap : Lap} (n : ℕ) (h : Lap.Sound g lap) :
    (Lap.tensors g n lap).Pairwise fun t u => t.deviceBufferOffset ≤ u.deviceBufferOffset := by
  induction lap generalizing n with
  | nil => exact List.Pairwise.nil
  | cons s lap ih =>
      have hs := h.segment s List.mem_cons_self
      obtain ⟨hclimb, htail⟩ := List.pairwise_cons.mp h.climb
      have hlap : Lap.Sound g lap := ⟨fun r hr => h.segment r (List.mem_cons_of_mem _ hr), htail⟩
      rw [Lap.tensors]
      refine List.pairwise_append.mpr ⟨?_, ih _ hlap, ?_⟩
      · rw [Segment.tensors_eq]
        refine List.pairwise_map.mpr (hs.sorted.imp_of_mem fun {e e'} he he' hee => ?_)
        have := hs.extents e he
        simp only [Segment.entry]
        omega
      · intro t ht u hu
        obtain ⟨lapBefore, r, lapAfter, rfl, e', he', rfl⟩ := Lap.mem_tensors.mp hu
        rw [Segment.tensors_eq, List.mem_map] at ht
        obtain ⟨e, he, rfl⟩ := ht
        have hr : r ∈ lapBefore ++ r :: lapAfter := by simp
        have htop := (hs.entry_dev hg he n).2
        have hbot := ((hlap.segment r hr).entry_dev hg he' 0).1
        have := hclimb r hr
        simp only [Segment.entry] at htop hbot ⊢
        omega

/-! ## What the loader relies on -/

structure Layout.Sound (L : Layout) : Prop where
  mono : L.tensors.Pairwise fun t u => t.prefetchChunkId ≤ u.prefetchChunkId
  prefetch_ge : ∀ t ∈ L.tensors, -1 ≤ t.prefetchChunkId
  prefetch_lt : ∀ t ∈ L.tensors, t.prefetchChunkId < L.chunks.length
  last_nonneg : ∀ t ∈ L.tensors, 0 ≤ t.lastChunkId
  /-- The last chunk is within reach of some tensor. -/
  final : ∃ t ∈ L.tensors, t.prefetchChunkId = (L.chunks.length : ℤ) - 1

theorem Layout.Sound.prefetch_mono {L : Layout} (h : L.Sound) {i j : ℕ} {t u : TensorMetadate}
    (hij : i ≤ j) (hi : L.tensors[i]? = some t) (hj : L.tensors[j]? = some u) :
    t.prefetchChunkId ≤ u.prefetchChunkId := by
  obtain ⟨hi', rfl⟩ := List.getElem?_eq_some_iff.mp hi
  obtain ⟨hj', rfl⟩ := List.getElem?_eq_some_iff.mp hj
  rcases Nat.lt_or_eq_of_le hij with hlt | rfl
  · exact List.pairwise_iff_getElem.mp h.mono i j hi' hj' hlt
  · exact Int.le_refl _

/-- The settled prefetch chunk of a tensor grows with its device address. -/
theorem settle_mono {n : ℕ} {next : List Chunk} {t u : TensorMetadate}
    (h : t.deviceBufferOffset ≤ u.deviceBufferOffset) :
    (t.settle g n next).prefetchChunkId ≤ (u.settle g n next).prefetchChunkId := by
  have hlen : (next.takeWhile fun c => decide (c.devStop g ≤ t.deviceBufferOffset)).length
      ≤ (next.takeWhile fun c => decide (c.devStop g ≤ u.deviceBufferOffset)).length := by
    induction next with
    | nil => exact Nat.le_refl _
    | cons c next ih =>
        by_cases hc : c.devStop g ≤ t.deviceBufferOffset
        · simp only [List.takeWhile_cons, decide_eq_true hc, decide_eq_true (Nat.le_trans hc h),
            if_true, List.length_cons]
          omega
        · simp [List.takeWhile_cons, hc]
  simp only [TensorMetadate.settle]
  omega

/-- A settled tensor may wait for all of its own lap, and at most for all of the next. -/
theorem settle_prefetch_bounds (n : ℕ) (next : List Chunk) (t : TensorMetadate) :
    (n : ℤ) - 1 ≤ (t.settle g n next).prefetchChunkId ∧
      (t.settle g n next).prefetchChunkId ≤ (n : ℤ) - 1 + next.length := by
  have hlen := (List.takeWhile_prefix
    (fun c => decide (c.devStop g ≤ t.deviceBufferOffset)) (l := next)).length_le
  simp only [TensorMetadate.settle]
  omega

/-- The prefetch chunks of a plan start behind its first lap and end within its chunks. -/
theorem settle_prefetch_range {laps : List Lap} {n : ℕ} (t : TensorMetadate)
    (ht : t ∈ (settle g n laps).tensors) :
    (n : ℤ) - 1 + (Lap.chunks g (laps.headD [])).length ≤ t.prefetchChunkId ∧
      t.prefetchChunkId < n + (settle g n laps).chunks.length := by
  induction laps generalizing n with
  | nil => cases ht
  | cons lap laps ih =>
      have hhead : (Lap.chunks g (laps.headD [])).length
          ≤ (settle g (n + (lap.chunks g).length) laps).chunks.length := by
        rw [settle_chunks]
        cases laps with
        | nil => exact Nat.le_refl _
        | cons lap' laps => simp
      simp only [settle, List.mem_append, List.mem_map, List.length_append, List.headD_cons] at ht ⊢
      rcases ht with ⟨u, -, rfl⟩ | ht
      · have := settle_prefetch_bounds (g := g) (n + (lap.chunks g).length)
          (Lap.chunks g (laps.headD [])) u
        omega
      · have := ih ht
        omega

theorem settle_mono_prefetch (hg : g.WF) {laps : List Lap} {n : ℕ}
    (h : ∀ lap ∈ laps, Lap.Sound g lap) :
    (settle g n laps).tensors.Pairwise fun t u => t.prefetchChunkId ≤ u.prefetchChunkId := by
  induction laps generalizing n with
  | nil => exact List.Pairwise.nil
  | cons lap laps ih =>
      simp only [settle]
      refine List.pairwise_append.mpr ⟨?_, ?_, ?_⟩
      · exact List.pairwise_map.mpr
          (((h lap List.mem_cons_self).sorted hg n).imp fun hle => settle_mono hle)
      · exact ih fun lap' hlap' => h lap' (List.mem_cons_of_mem _ hlap')
      · intro t ht u hu
        obtain ⟨t, -, rfl⟩ := List.mem_map.mp ht
        have hlow := (settle_prefetch_range u hu).1
        have hup := (settle_prefetch_bounds (g := g) (n + (lap.chunks g).length)
          (Lap.chunks g (laps.headD [])) t).2
        omega

theorem Load.layout_sound (l : Load) : l.layout.Sound where
  mono := l.layout_eq ▸ settle_mono_prefetch l.wf l.plan_sound
  prefetch_ge := by
    intro t ht
    rw [l.layout_eq] at ht
    have := (settle_prefetch_range t ht).1
    omega
  prefetch_lt := by
    intro t ht
    rw [l.layout_eq] at ht ⊢
    have := (settle_prefetch_range t ht).2
    omega
  last_nonneg := by
    intro t ht
    rw [l.layout_eq] at ht
    obtain ⟨σ, -, e, -, rfl⟩ := mem_settle_tensors.mp ht
    exact Int.natCast_nonneg _
  final := by
    obtain ⟨laps, lap, last, hplan, hne⟩ := plan_last (g := l.geometry) l.valid
    obtain ⟨e, he⟩ := List.exists_mem_of_ne_nil _ hne
    let σ : Site := ⟨laps, lap, last, [], []⟩
    have hσ : σ.laps = l.plan := hplan.symm
    refine ⟨σ.tensor l.geometry 0 e, ?_, ?_⟩
    · rw [l.layout_eq]
      exact mem_settle_tensors.mpr ⟨σ, hσ, e, he, rfl⟩
    · rw [l.layout_eq, ← hσ, σ.chunks_eq]
      simp [σ, Site.tensor, TensorMetadate.settle, Site.next, Site.first, Site.nextChunks]
      omega

end

end InstantTensor
