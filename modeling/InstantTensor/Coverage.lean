/-
# `InstantTensor.Coverage` — every byte of the tensors is asked for, and no page for nothing

A read asks for its slice, AIO and io_uring up to the end of the slice's last page.  Where the length of
io_uring has room for its slices every byte of the tensors is asked for.

A segment begins at the page of its first tensor, so two segments of one file may have a page in common:
the one in which a tensor that no longer fit behind the first segment begins.  Segments of one file are in
different laps, each from its second on at the start of the buffer (`planFrom_segments`), and the chunks of
a segment do not meet, nor do their pages.  A byte that is asked for a second time is therefore in the
first page of a chunk at the start of the buffer, and every other byte is asked for once, by one thread
of one rank.

The reads are aligned: each begins at a page of its file and, in the host buffer, at a page, and
asks for whole pages.  A slice that ends inside a page is at the end of its chunk, and the chunk is the last of a
file or of a lap.
-/
import Mathlib.Data.List.Range
import InstantTensor.Delivery

namespace InstantTensor

/-! ## The segments of one file -/

/-- How an earlier segment and a later one may meet: only in the first page of the later one, which is then
at the start of the buffer. -/
def Segment.Before (g : Geometry) (s s' : Segment) : Prop :=
  s.fileIndex < s'.fileIndex ∨
    s.fileIndex = s'.fileIndex ∧ s.stop < s'.base + g.threadAlignment ∧ s'.dev ≤ firstTensorAlignment

section
variable {g : Geometry}

theorem Segment.before_opened_file {r : Segment} {f : ℕ} (h : r.fileIndex < f) (o level : ℕ) :
    r.Before g (Segment.opened g f o level) := .inl h

theorem Segment.before_opened_zero (hg : g.WF) {r : Segment} {f o : ℕ}
    (h : r.fileIndex < f ∨ r.fileIndex = f ∧ r.stop ≤ o) (o' : ℕ) :
    r.Before g ((Segment.opened g f o 0).push o o') := by
  rcases h with hlt | ⟨heq, hstop⟩
  · exact .inl hlt
  · have hpage := Nat.mod_lt o hg.thread_pos
    have hbase := roundDown_add_mod o g.threadAlignment
    refine .inr ⟨heq, ?_, Segment.opened_zero_dev_le f o⟩
    change r.stop < roundDown o g.threadAlignment + g.threadAlignment
    omega

/-- The segments of a plan meet at most in a page, those behind `front` included. -/
theorem planFrom_segments (hg : g.WF) (rest : List (ℕ × ℕ)) {f o : ℕ} {filled : Bool} {s : Segment}
    {closed : Lap} (hv : OffsetsFrom f o filled rest) (hs : s.fileIndex = f ∧ s.stop = o)
    {front : List Segment} (h : (front ++ (closed ++ [s])).Pairwise (Segment.Before g))
    (hle : ∀ r ∈ front ++ (closed ++ [s]), r.fileIndex < f ∨ r.fileIndex = f ∧ r.stop ≤ o) :
    (front ++ (planFrom g ((f, o) :: rest) s closed).flatten).Pairwise (Segment.Before g) := by
  induction rest generalizing f o filled s closed front with
  | nil => simpa [planFrom] using h
  | cons e rest ih =>
      obtain ⟨f', o'⟩ := e
      obtain ⟨rfl, rfl⟩ := hs
      rcases hv with ⟨rfl, ho, hv⟩ | ⟨-, rfl, hv⟩
      · rw [planFrom, if_neg (by simp)]
        split
        · -- the segment grows: what comes before it does not see its end
          refine ih (s := s.push s.stop o') hv ⟨rfl, rfl⟩ ?_ ?_
          · rw [← List.append_assoc] at h ⊢
            obtain ⟨hfront, hself, hbefore⟩ := List.pairwise_append.mp h
            refine List.pairwise_append.mpr ⟨hfront, List.pairwise_singleton _ _, ?_⟩
            intro r hr s' hs'
            rw [List.mem_singleton.mp hs']
            exact hbefore r hr s (List.mem_singleton_self s)
          · intro r hr
            rw [← List.append_assoc] at hr hle
            rcases List.mem_append.mp hr with hr | hr
            · exact (hle r (List.mem_append_left _ hr)).imp_right fun hr => ⟨hr.1, hr.2.trans ho⟩
            · rw [List.mem_singleton.mp hr]
              exact .inr ⟨rfl, le_rfl⟩
        · -- the next lap begins with the tensor
          rw [List.flatten_cons, ← List.append_assoc]
          refine ih (s := (Segment.opened g s.fileIndex s.stop 0).push s.stop o') hv ⟨rfl, rfl⟩ ?_ ?_
          · refine List.pairwise_append.mpr ⟨h, List.pairwise_singleton _ _, ?_⟩
            intro r hr s' hs'
            rw [List.mem_singleton.mp hs']
            exact Segment.before_opened_zero hg (hle r hr) o'
          · intro r hr
            rcases List.mem_append.mp hr with hr | hr
            · exact (hle r hr).imp_right fun hr => ⟨hr.1, hr.2.trans ho⟩
            · rw [List.mem_singleton.mp hr]
              exact .inr ⟨rfl, le_rfl⟩
      · rw [planFrom, if_pos (by omega)]
        have hlt : ∀ r ∈ front ++ (closed ++ [s]), r.fileIndex < s.fileIndex + 1 := fun r hr => by
          have hr := hle r hr
          omega
        refine ih hv ⟨rfl, rfl⟩ ?_ ?_
        · rw [← List.append_assoc]
          refine List.pairwise_append.mpr ⟨h, List.pairwise_singleton _ _, ?_⟩
          intro r hr s' hs'
          rw [List.mem_singleton.mp hs']
          exact Segment.before_opened_file (hlt r hr) o' _
        · intro r hr
          rw [← List.append_assoc] at hr
          rcases List.mem_append.mp hr with hr | hr
          · exact .inl (hlt r hr)
          · rw [List.mem_singleton.mp hr]
            exact .inr ⟨rfl, le_rfl⟩

theorem plan_segments (hg : g.WF) {offs : List (ℕ × ℕ)} (hv : ValidOffsets offs) :
    (plan g offs).flatten.Pairwise (Segment.Before g) := by
  match offs, hv with
  | (f, o) :: rest, ⟨_, hv⟩ =>
      have hopened : ∀ r ∈ [] ++ ([] ++ [Segment.opened g f o 0]),
          r.fileIndex < f ∨ r.fileIndex = f ∧ r.stop ≤ o := by
        intro r hr
        rw [List.mem_singleton.mp hr]
        exact .inr ⟨rfl, le_rfl⟩
      exact planFrom_segments hg rest hv ⟨rfl, rfl⟩ (List.pairwise_singleton _ _) hopened

/-! ## The chunks of one file -/

/-- Byte `x` of file `f` is in a page of the chunk. -/
def Chunk.Spans (g : Geometry) (c : Chunk) (f x : ℕ) : Prop :=
  c.fileIndex = f ∧ c.fileOffset ≤ x ∧ x < c.fileOffset + roundUp c.size g.threadAlignment

/-- What an earlier chunk and a later one have both in their pages is in the first page of the later
one, which is then at the start of the buffer. -/
def Chunk.Before (g : Geometry) (c c' : Chunk) : Prop :=
  ∀ f x, c.Spans g f x → c'.Spans g f x →
    x < c'.fileOffset + g.threadAlignment ∧ c'.deviceBufferOffset ≤ firstTensorAlignment

theorem Segment.chunk_spans (hg : g.WF) {s : Segment} {q f x : ℕ} (h : (s.chunk g q).Spans g f x) :
    s.fileIndex = f ∧ s.base + q * g.worldChunkSize ≤ x ∧
      x < s.base + (q + 1) * g.worldChunkSize ∧ x < s.base + roundUp s.len g.threadAlignment := by
  obtain ⟨hfile, hlo, hhi⟩ := h
  have hpage : g.threadAlignment ∣ g.worldChunkSize := hg.thread_dvd.trans hg.world_dvd
  have hfull : roundUp (s.chunk g q).size g.threadAlignment ≤ g.worldChunkSize :=
    roundUp_le_of_dvd hg.thread_pos (min_le_left _ _) hpage
  have hrest : roundUp (s.chunk g q).size g.threadAlignment
      ≤ roundUp (s.len - q * g.worldChunkSize) g.threadAlignment :=
    roundUp_mono (min_le_right _ _) _
  change s.base + q * g.worldChunkSize ≤ x at hlo
  change x < s.base + q * g.worldChunkSize + _ at hhi
  -- the piece has bytes, so it starts inside the segment
  have hinside : q * g.worldChunkSize ≤ s.len := by
    by_contra hout
    rw [Nat.sub_eq_zero_of_le (by omega), roundUp_zero hg.thread_pos] at hrest
    omega
  have hlen : q * g.worldChunkSize + roundUp (s.len - q * g.worldChunkSize) g.threadAlignment
      = roundUp s.len g.threadAlignment := by
    rw [← roundUp_add_left hg.thread_pos (Nat.dvd_mul_left_of_dvd hpage q),
      Nat.add_sub_cancel' hinside]
  rw [Nat.succ_mul]
  exact ⟨hfile, hlo, by omega, by omega⟩

/-- The pages of the chunks of a segment do not meet. -/
theorem Segment.chunks_before (hg : g.WF) (s : Segment) : (s.chunks g).Pairwise (Chunk.Before g) := by
  refine List.pairwise_map.mpr (List.pairwise_lt_range.imp fun {q q'} hlt => ?_)
  intro f x hq hq'
  have hnext := (Segment.chunk_spans hg hq).2.2.1
  have hstart := (Segment.chunk_spans hg hq').2.1
  have hmul := Nat.mul_le_mul_right g.worldChunkSize (show q + 1 ≤ q' from hlt)
  omega

/-- Those of two segments meet as the segments do. -/
theorem Segment.Before.chunks (hg : g.WF) {s s' : Segment} (h : s.Before g s')
    (hbase : g.threadAlignment ∣ s.base) (hbase' : g.threadAlignment ∣ s'.base)
    {c c' : Chunk} (hc : c ∈ s.chunks g) (hc' : c' ∈ s'.chunks g) : c.Before g c' := by
  obtain ⟨q, hq, rfl⟩ := (Segment.mem_chunks hg).mp hc
  obtain ⟨q', hq', rfl⟩ := (Segment.mem_chunks hg).mp hc'
  intro f x hx hx'
  obtain ⟨hfile, hlo, -, hend⟩ := Segment.chunk_spans hg hx
  obtain ⟨hfile', hlo', -, -⟩ := Segment.chunk_spans hg hx'
  rcases h with hlt | ⟨-, hstop, hdev⟩
  · omega
  · have hpage : g.threadAlignment ≤ g.worldChunkSize :=
      Nat.le_of_dvd hg.chunk_pos (Nat.dvd_trans hg.thread_dvd hg.world_dvd)
    -- the first segment has bytes, and its last page is no later than the first of the other
    have hlen : 0 < s.len := by
      refine Nat.pos_of_ne_zero fun hzero => ?_
      rw [hzero, roundUp_zero hg.thread_pos] at hend
      omega
    have hlast : s.base + roundUp s.len g.threadAlignment ≤ s'.base + g.threadAlignment := by
      rw [← roundUp_add_left hg.thread_pos hbase]
      refine roundUp_le_of_dvd hg.thread_pos ?_ (Nat.dvd_add hbase' (Nat.dvd_refl _))
      unfold Segment.len at hlen ⊢
      omega
    -- a byte of it is in front of the second piece of the other
    have hfirst : q' = 0 := by
      by_contra hne
      have hmul := Nat.le_mul_of_pos_left g.worldChunkSize (Nat.pos_of_ne_zero hne)
      omega
    subst hfirst
    simp only [Segment.chunk, Segment.full, Nat.zero_mul, Nat.add_zero]
    exact ⟨by omega, hdev⟩

end

theorem Load.chunks_eq_flatMap (l : Load) :
    l.layout.chunks = l.plan.flatten.flatMap (Segment.chunks l.geometry) := by
  rw [l.layout_eq, settle_chunks, List.flatten_eq_flatMap, List.flatMap_assoc]
  rfl

theorem Load.base_dvd (l : Load) {s : Segment} (hs : s ∈ l.plan.flatten) :
    l.geometry.threadAlignment ∣ s.base := by
  obtain ⟨lap, hlap, hs⟩ := List.mem_flatten.mp hs
  exact ((l.plan_sound lap hlap).segment s hs).base_dvd

theorem Load.chunks_before (l : Load) : l.layout.chunks.Pairwise (Chunk.Before l.geometry) := by
  rw [l.chunks_eq_flatMap]
  refine List.pairwise_flatMap.mpr ⟨fun s _ => s.chunks_before l.wf, ?_⟩
  refine (plan_segments l.wf l.valid).imp_of_mem ?_
  intro s s' hs hs' hbefore c hc c' hc'
  exact hbefore.chunks l.wf (l.base_dvd hs) (l.base_dvd hs') hc hc'

/-! ## Which chunk comes next -/

/-- The next chunk goes on where a full chunk ends, or it begins a file, or a lap. -/
def Chunk.Next (g : Geometry) (c c' : Chunk) : Prop :=
  (c.size = g.worldChunkSize ∧ c'.fileIndex = c.fileIndex ∧ c'.fileOffset = c.fileOffset + c.size ∧
      c'.deviceBufferOffset = c.deviceBufferOffset + c.size) ∨
    c.fileIndex < c'.fileIndex ∨ c'.deviceBufferOffset ≤ firstTensorAlignment

theorem Segment.chunks_next {g : Geometry} (hg : g.WF) (s : Segment) :
    (s.chunks g).IsChain (Chunk.Next g) := by
  refine (List.isChain_map _).mpr ((List.isChain_range _ _).mpr fun q hq => .inl ?_)
  have hmore : (q + 1) * g.worldChunkSize < s.len :=
    (lt_divCeil_iff hg.chunk_pos).mp (by omega)
  rw [Nat.succ_mul] at hmore
  have hfull : (s.chunk g q).size = g.worldChunkSize := by
    simp only [chunk]
    omega
  refine ⟨hfull, rfl, ?_, ?_⟩
  · rw [hfull]
    simp only [chunk, full, Nat.succ_mul]
    omega
  · rw [hfull]
    simp only [chunk, full, Nat.succ_mul]
    omega

theorem Load.chunks_next (l : Load) : l.layout.chunks.IsChain (Chunk.Next l.geometry) := by
  rw [l.chunks_eq_flatMap]
  refine isChain_flatMap (fun s _ => s.chunks_next l.wf) ?_
  refine (plan_segments l.wf l.valid).imp ?_
  intro s s' hbefore c hc c' hc'
  obtain ⟨q, -, rfl⟩ := (Segment.mem_chunks l.wf).mp (List.mem_of_getLast? hc)
  -- the first chunk of a segment is at its start
  have hfirst : c' = s'.chunk l.geometry 0 := by
    rw [Segment.chunks, List.head?_map, List.head?_range] at hc'
    split at hc'
    · cases hc'
    · exact (Option.some.inj hc').symm
  subst hfirst
  rcases hbefore with hlt | ⟨-, -, hdev⟩
  · exact .inr (.inl hlt)
  · refine .inr (.inr ?_)
    simp only [Segment.chunk, Segment.full, Nat.zero_mul, Nat.add_zero]
    exact hdev

/-! ## The reads of a load -/

/-- No request of io_uring is cut: the first slice of a rank, which is the longest, has pages that count in
32 bits.  `backends r` is the backend of rank `r`. -/
def Load.Uncut (l : Load) (backends : ℕ → Backend) : Prop :=
  ∀ (c r : ℕ) (chunk : Chunk), l.layout.chunks[c]? = some chunk → r < l.args.worldSize →
    (backends r = Backend.URING ∨ backends r = Backend.URING_BUFFERED) →
    roundUp (min (chunk.size - (rankParams l.pageSize l.args c chunk r).rankOffset)
      (rankParams l.pageSize l.args c chunk r).paddedThreadSize) l.pageSize < 2 ^ 32

/-- **Every byte of the tensors is asked for, and once, but for the page of the file in which a lap
begins.** -/
structure ReadsOnce (l : Load) (backends : ℕ → Backend) : Prop where
  covered : l.Uncut backends → ∀ t ∈ l.layout.tensors, ∀ b < t.size, ∃ c, ∃ r < l.args.worldSize,
    ∃ rd ∈ (l.atRank (backends r) r).reads c,
      rd.fileIndex = t.fileIndex ∧ rd.Asks (t.fileOffset + b)
  once : ∀ (c c' r r' : ℕ) (rd rd' : Read) (x : ℕ), c ≤ c' → rd ∈ (l.atRank (backends r) r).reads c →
    rd' ∈ (l.atRank (backends r') r').reads c' → rd.fileIndex = rd'.fileIndex → rd.Asks x →
    rd'.Asks x → (c = c' ∧ r = r' ∧ rd = rd') ∨ (c < c' ∧ ∃ chunk', l.layout.chunks[c']? = some chunk' ∧
      x < chunk'.fileOffset + l.pageSize ∧ chunk'.deviceBufferOffset ≤ firstTensorAlignment)

section
variable {l : Load} {b : Backend} {c r i x : ℕ} {chunk : Chunk}

theorem Load.rankSlice_padded (hchunk : l.layout.chunks[c]? = some chunk) (r : ℕ) :
    chunk.Padded l.pageSize l.args (rankParams l.pageSize l.args c chunk r).paddedThreadSize
      (rankParams l.pageSize l.args c chunk r).paddedRankSize :=
  rankParams_padded c l.page_pos l.admitted.numThreads_pos l.admitted.worldSize_pos
    (l.postable (List.mem_of_getElem? hchunk)) r

/-- What a read asks for is in the place of its slice, and in the pages of its chunk. -/
theorem Load.asks (hchunk : l.layout.chunks[c]? = some chunk)
    (hx : (slice (l.atRank b r).geometry (l.atRank b r).args
      ((l.atRank b r).params c chunk) i).Asks x) :
    chunk.fileOffset ≤ x ∧ x < chunk.fileOffset + roundUp chunk.size l.pageSize ∧
      (x - chunk.fileOffset) / (rankParams l.pageSize l.args c chunk r).paddedThreadSize
        = r * l.args.numThreads + i := by
  have hpadded := Load.rankSlice_padded hchunk r
  set p := rankParams l.pageSize l.args c chunk r with hp
  have hpiece : p.threadSize i
      = piece chunk.size p.paddedThreadSize (r * l.args.numThreads + i) := threadSize_eq_piece hpadded
  have hrequest : (slice (l.atRank b r).geometry (l.atRank b r).args
      ((l.atRank b r).params c chunk) i).request ≤ roundUp (p.threadSize i) l.pageSize :=
    requestSize_le l.page_pos _ _
  obtain ⟨hlo, hhi⟩ := hx
  change (rankSlice l.pageSize l.args c chunk r i).fileOffset ≤ x at hlo
  change x < (rankSlice l.pageSize l.args c chunk r i).fileOffset + _ at hhi
  rw [rankSlice_fileOffset hpadded, ← hp] at hlo hhi
  set place := p.paddedThreadSize * (r * l.args.numThreads + i) with hplace
  have hround : roundUp (p.threadSize i) l.pageSize ≤ p.paddedThreadSize :=
    roundUp_threadSize_le l.page_pos hpadded.page i
  have hbytes : 0 < p.threadSize i := by
    refine Nat.pos_of_ne_zero fun hzero => ?_
    rw [hzero, roundUp_zero l.page_pos] at hrequest
    omega
  -- the slice ends inside the chunk, so its pages do in the pages of the chunk
  have hend : place + roundUp (p.threadSize i) l.pageSize ≤ roundUp chunk.size l.pageSize := by
    rw [← roundUp_add_left l.page_pos (Nat.dvd_mul_right_of_dvd hpadded.page _)]
    refine roundUp_mono ?_ _
    rw [hpiece] at hbytes ⊢
    unfold piece at hbytes ⊢
    omega
  refine ⟨by omega, by omega, ?_⟩
  rw [Nat.div_eq_iff hpadded.pos, Nat.mul_comm _ p.paddedThreadSize, ← hplace]
  omega

theorem Load.reads_once (l : Load) (backends : ℕ → Backend) : ReadsOnce l backends where
  covered := by
    intro huncut t ht b hb
    obtain ⟨c, chunk, y, hchunk, -, hy, -, hfile, hoffset, -⟩ := l.byte_home ht hb
    have hinside : chunk.fileOffset ≤ t.fileOffset + b ∧
        t.fileOffset + b < chunk.fileOffset + chunk.size := ⟨by omega, by omega⟩
    have hpadded := Load.rankSlice_padded hchunk
    obtain ⟨r, hr, i, hi, hholds⟩ :=
      (slices_cover l.admitted.numThreads_pos hpadded (t.fileOffset + b)).mpr hinside
    have hin : (slice (l.atRank (backends r) r).geometry (l.atRank (backends r) r).args
        ((l.atRank (backends r) r).params c chunk) i).Holds (t.fileOffset + b) := hholds
    have hwhole := @le_requestSize (l.atRank (backends r) r).geometry l.page_pos
      (l.atRank (backends r) r).args (((l.atRank (backends r) r).params c chunk).threadSize i)
      fun hb => (roundUp_mono (threadSize_le_first _ i) _).trans_lt (huncut c r chunk hchunk hr hb)
    refine ⟨c, r, hr, slice (l.atRank (backends r) r).geometry (l.atRank (backends r) r).args
      ((l.atRank (backends r) r).params c chunk) i, ?_, hfile.symm, hin.1, ?_⟩
    · refine Load.mem_reads.mpr ⟨chunk, hchunk, i, hi, ?_, rfl⟩
      exact Nat.pos_of_lt_add_right (Nat.lt_of_le_of_lt hin.1 hin.2)
    · exact hin.2.trans_le (Nat.add_le_add_left hwhole _)
  once := by
    intro c c' r r' rd rd' x hle hrd hrd' hfile hx hx'
    obtain ⟨chunk, hchunk, i, hi, -, rfl⟩ := Load.mem_reads.mp hrd
    obtain ⟨chunk', hchunk', i', hi', -, rfl⟩ := Load.mem_reads.mp hrd'
    change l.layout.chunks[c]? = some chunk at hchunk
    change l.layout.chunks[c']? = some chunk' at hchunk'
    obtain ⟨hlo, hhi, hdiv⟩ := Load.asks hchunk hx
    obtain ⟨hlo', hhi', hdiv'⟩ := Load.asks hchunk' hx'
    rcases Nat.lt_or_eq_of_le hle with hlt | rfl
    · right
      refine ⟨hlt, chunk', hchunk', ?_⟩
      obtain ⟨hc, rfl⟩ := List.getElem?_eq_some_iff.mp hchunk
      obtain ⟨hc', rfl⟩ := List.getElem?_eq_some_iff.mp hchunk'
      have hbefore := List.pairwise_iff_getElem.mp l.chunks_before c c' hc hc' hlt
      exact hbefore _ x ⟨rfl, hlo, hhi⟩ ⟨hfile.symm, hlo', hhi'⟩
    · left
      obtain rfl := Option.some.inj (hchunk.symm.trans hchunk')
      obtain ⟨rfl, rfl⟩ := mul_add_inj hi hi' (hdiv.symm.trans hdiv')
      exact ⟨rfl, rfl, rfl⟩

/-! ## Aligned reads -/

/-- **The reads are aligned.** -/
structure ReadsAligned (l : Load) (backends : ℕ → Backend) : Prop where
  /-- A read begins at a page of its file. -/
  file : ∀ (c r : ℕ), ∀ rd ∈ (l.atRank (backends r) r).reads c, l.pageSize ∣ rd.fileOffset
  /-- What goes through the host buffer begins at a page of it. -/
  host : ∀ (c r : ℕ), backends r ≠ Backend.CUFILE → ∀ rd ∈ (l.atRank (backends r) r).reads c,
    l.pageSize ∣ rd.bufferOffset
  /-- `io_submit` asks for whole pages, no more than the slice has. -/
  whole : ∀ (c r : ℕ), (backends r = Backend.AIO ∨ backends r = Backend.AIO_BUFFERED) →
    ∀ rd ∈ (l.atRank (backends r) r).reads c,
      l.pageSize ∣ rd.request ∧ rd.size ≤ rd.request ∧ rd.request < rd.size + l.pageSize
  /-- A slice that ends inside a page ends where its chunk does. -/
  cut : ∀ (c r : ℕ) (chunk : Chunk), l.layout.chunks[c]? = some chunk →
    ∀ rd ∈ (l.atRank (backends r) r).reads c, ¬ l.pageSize ∣ rd.size →
      rd.fileOffset + rd.size = chunk.fileOffset + chunk.size
  /-- Only the last chunk of a file or of a lap needs padding. -/
  padding : ∀ (c : ℕ) (chunk chunk' : Chunk), l.layout.chunks[c]? = some chunk →
    l.layout.chunks[c + 1]? = some chunk' → ¬ l.geometry.worldChunkAlignment ∣ chunk.size →
      chunk.fileIndex < chunk'.fileIndex ∨ chunk'.deviceBufferOffset ≤ firstTensorAlignment

theorem Load.reads_aligned (l : Load) (backends : ℕ → Backend) : ReadsAligned l backends where
  file := by
    intro c r rd hrd
    obtain ⟨chunk, hchunk, i, hi, -, rfl⟩ := Load.mem_reads.mp hrd
    change l.layout.chunks[c]? = some chunk at hchunk
    have hpadded := Load.rankSlice_padded hchunk r
    have hoffset : (slice (l.atRank (backends r) r).geometry (l.atRank (backends r) r).args
        ((l.atRank (backends r) r).params c chunk) i).fileOffset
        = (rankSlice l.pageSize l.args c chunk r i).fileOffset := rfl
    rw [hoffset, rankSlice_fileOffset hpadded]
    exact Nat.dvd_add (l.postable (List.mem_of_getElem? hchunk)).aligned
      (Nat.dvd_mul_right_of_dvd hpadded.page _)
  host := by
    intro c r hbackend rd hrd
    obtain ⟨chunk, hchunk, i, hi, -, rfl⟩ := Load.mem_reads.mp hrd
    change l.layout.chunks[c]? = some chunk at hchunk
    have hpadded := Load.rankSlice_padded hchunk r
    have hbase := Load.readBase_eq (l := l.atRank (backends r) r) hbackend c chunk
    have hthread : l.pageSize ∣ l.geometry.threadChunkSize := by
      rw [Load.geometry, initBuffer_threadChunkSize l.page_pos]
      exact dvd_roundUp _ _
    rw [slice_bufferOffset, hbase]
    refine Nat.dvd_add (Nat.dvd_mul_left_of_dvd ?_ _) (Nat.dvd_mul_right_of_dvd hpadded.page i)
    exact Nat.dvd_mul_right_of_dvd hthread l.args.numThreads
  whole := by
    intro c r hbackend rd hrd
    obtain ⟨chunk, -, i, -, -, rfl⟩ := Load.mem_reads.mp hrd
    have hrequest : requestSize (l.atRank (backends r) r).geometry (l.atRank (backends r) r).args
        (((l.atRank (backends r) r).params c chunk).threadSize i)
        = roundUp (((l.atRank (backends r) r).params c chunk).threadSize i) l.pageSize := by
      unfold requestSize
      rcases hbackend with hb | hb
      · simp only [show (l.atRank (backends r) r).args.backend = Backend.AIO from hb]
        rfl
      · simp only [show (l.atRank (backends r) r).args.backend = Backend.AIO_BUFFERED from hb]
        rfl
    simp only [slice, hrequest]
    exact ⟨dvd_roundUp _ _, le_roundUp l.page_pos, roundUp_lt l.page_pos⟩
  cut := by
    intro c r chunk hchunk rd hrd hcut
    obtain ⟨chunk', hchunk', i, hi, -, rfl⟩ := Load.mem_reads.mp hrd
    change l.layout.chunks[c]? = some chunk' at hchunk'
    obtain rfl := Option.some.inj (hchunk.symm.trans hchunk')
    have hpadded := Load.rankSlice_padded hchunk r
    have hpiece : (rankSlice l.pageSize l.args c chunk r i).size
        = piece chunk.size (rankParams l.pageSize l.args c chunk r).paddedThreadSize
          (r * l.args.numThreads + i) := threadSize_eq_piece hpadded
    change ¬ l.pageSize ∣ (rankSlice l.pageSize l.args c chunk r i).size at hcut
    change (rankSlice l.pageSize l.args c chunk r i).fileOffset
      + (rankSlice l.pageSize l.args c chunk r i).size = _
    rw [hpiece, piece] at hcut
    rw [rankSlice_fileOffset hpadded, hpiece, piece]
    have hshort : ¬ (rankParams l.pageSize l.args c chunk r).paddedThreadSize
        ≤ chunk.size - (rankParams l.pageSize l.args c chunk r).paddedThreadSize
          * (r * l.args.numThreads + i) := by
      intro hle
      rw [Nat.min_eq_right hle] at hcut
      exact hcut hpadded.page
    have hpos : 0 < chunk.size - (rankParams l.pageSize l.args c chunk r).paddedThreadSize
        * (r * l.args.numThreads + i) := by
      refine Nat.pos_of_ne_zero fun hzero => hcut ?_
      rw [hzero, Nat.zero_min]
      exact Nat.dvd_zero _
    omega
  padding := by
    intro c chunk chunk' hchunk hchunk' hpad
    obtain ⟨hc, rfl⟩ := List.getElem?_eq_some_iff.mp hchunk
    obtain ⟨hc', rfl⟩ := List.getElem?_eq_some_iff.mp hchunk'
    rcases List.isChain_iff_getElem.mp l.chunks_next c hc' with ⟨hfull, -⟩ | hnext
    · rw [hfull] at hpad
      exact absurd l.wf.world_dvd hpad
    · exact hnext

end

end InstantTensor
