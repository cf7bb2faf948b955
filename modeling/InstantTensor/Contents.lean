/-
# `InstantTensor.Contents` — the layout delivers every tensor's bytes

Writing chunk `c` puts the bytes of its file range at its device offset and leaves the
padding up to a whole world unit unspecified; chunks are written in order.  A tensor is
then in place from its last chunk on and stays in place up to its prefetch chunk
(`Load.tensor_in_place`).

The byte at device offset `d` of a tensor is byte `x` of its segment.  Piece
`x / worldChunkSize` of the segment writes it, and no later chunk up to the prefetch chunk
reaches `d` (`Site.misses_after`): later pieces of the segment start behind `d`, the
later segments of the lap start behind the segment's padding, and of the next lap the
prefetch chunk only admits chunks that end at or before the tensor.
-/
import InstantTensor.Lib.Memory
import InstantTensor.Sites

namespace InstantTensor

section
variable (g : Geometry) {α : Type}

/-- What reading a chunk writes: `file f o` is byte `o` of file `f`. -/
def Chunk.write (file : ℕ → ℕ → α) (c : Chunk) : Write α where
  addr := c.deviceBufferOffset
  len := c.size
  padded := roundUp c.size g.worldChunkAlignment
  data := fun b => file c.fileIndex (c.fileOffset + b)

end

section
variable {g : Geometry} {α : Type}

theorem Chunk.write_misses (hg : g.WF) {file : ℕ → ℕ → α} {c : Chunk} {a : ℕ} :
    (c.write g file).Misses a ↔ a < c.deviceBufferOffset ∨ c.devStop g ≤ a := by
  have hpad : c.size ≤ roundUp c.size g.worldChunkAlignment := le_roundUp hg.world_pos
  simp only [Write.Misses, Chunk.write, Chunk.devStop, Nat.max_eq_right hpad]

/-- Byte `x` of a segment is in piece `x / worldChunkSize`. -/
theorem Segment.lt_chunk_size (hg : g.WF) {s : Segment} {x : ℕ} (hx : x < s.len) :
    x / g.worldChunkSize * g.worldChunkSize ≤ x ∧
      x - x / g.worldChunkSize * g.worldChunkSize < (s.chunk g (x / g.worldChunkSize)).size := by
  have hle := Nat.div_mul_le_self x g.worldChunkSize
  have hlt := Nat.lt_div_mul_add hg.chunk_pos (a := x)
  simp only [Segment.chunk]
  omega

/-- Pieces of a segment lie at or behind its device offset. -/
theorem Segment.le_chunk_dev {s : Segment} {c : Chunk} (hg : g.WF) (hc : c ∈ s.chunks g) :
    s.dev ≤ c.deviceBufferOffset := by
  obtain ⟨q, -, rfl⟩ := (Segment.mem_chunks hg).mp hc
  exact Nat.le_add_right _ _

/-- What comes behind a segment in its lap lies behind its padding. -/
theorem Site.lapAfter_dev (hg : g.WF) {σ : Site}
    (hlap : Lap.Sound g (σ.lapBefore ++ σ.seg :: σ.lapAfter)) {c : Chunk}
    (hc : c ∈ σ.lapAfter.chunks g) : σ.seg.devStop g < c.deviceBufferOffset := by
  obtain ⟨s, hs, hc⟩ := List.mem_flatMap.mp hc
  have hclimb := (List.pairwise_append.mp hlap.climb).2.1
  have hlt := (List.pairwise_cons.mp hclimb).1 s hs
  have hle := Segment.le_chunk_dev hg hc
  omega

/-- Up to the prefetch chunk, the next lap stays below the tensor. -/
theorem Site.nextChunks_le (σ : Site) {e : ℕ × ℕ} {j : ℕ} {c : Chunk}
    (hj : (σ.after.flatMap (Lap.chunks g))[j - σ.next g]? = some c) (hnext : σ.next g ≤ j)
    (hpf : j ≤ (σ.tensor g 0 e).prefetchChunkId) :
    c.devStop g ≤ (σ.tensor g 0 e).deviceBufferOffset := by
  simp only [Site.tensor, TensorMetadate.settle, Nat.zero_add] at hpf ⊢
  set kept := (σ.nextChunks g).takeWhile fun c =>
    decide (c.devStop g ≤ (σ.seg.entry g (σ.first g) e).deviceBufferOffset) with hkept
  have hlt : j - σ.next g < kept.length := by omega
  have hprefix : kept <+: σ.nextChunks g := List.takeWhile_prefix _
  rw [σ.flatMap_after, List.getElem?_append_left (Nat.lt_of_lt_of_le hlt hprefix.length_le)] at hj
  have hmem : c ∈ kept := by
    have hget := List.prefix_iff_getElem?.mp hprefix _ hlt
    rw [hj] at hget
    exact (Option.some.inj hget) ▸ List.getElem_mem hlt
  simpa using List.mem_takeWhile_imp hmem

/-- No chunk behind the one that holds a byte of a tensor reaches that byte before the
tensor's prefetch chunk is passed. -/
theorem Site.misses_after (hg : g.WF) {σ : Site}
    (hlap : Lap.Sound g (σ.lapBefore ++ σ.seg :: σ.lapAfter)) {e : ℕ × ℕ} (he : e ∈ σ.seg.extents)
    {x j : ℕ} {c : Chunk} (hlo : e.1 ≤ σ.seg.base + x) (hx : x < σ.seg.len)
    (hj : (settle g 0 σ.laps).chunks[j]? = some c) (hq : σ.first g + x / g.worldChunkSize < j)
    (hpf : j ≤ (σ.tensor g 0 e).prefetchChunkId) :
    σ.seg.dev + x < c.deviceBufferOffset ∨ c.devStop g ≤ σ.seg.dev + x := by
  have hextent := (hlap.segment σ.seg (by simp)).extents e he
  rcases σ.chunk_from hg hj (Nat.le_of_add_right_le (Nat.le_of_lt hq)) with ⟨q, -, hjq, rfl⟩ | hc | ⟨hnext, hc⟩
  · left
    have hlt := Nat.lt_div_mul_add hg.chunk_pos (a := x)
    have hpiece : (x / g.worldChunkSize + 1) * g.worldChunkSize ≤ q * g.worldChunkSize :=
      Nat.mul_le_mul_right _ (by omega)
    rw [Nat.succ_mul] at hpiece
    simp only [Segment.chunk, Segment.full]
    omega
  · left
    have hbehind := σ.lapAfter_dev hg hlap hc
    have hpad : σ.seg.len ≤ roundUp σ.seg.len g.worldChunkAlignment := le_roundUp hg.world_pos
    simp only [Segment.devStop] at hbehind
    omega
  · right
    have hbelow := σ.nextChunks_le hc hnext hpf
    simp only [Site.tensor, TensorMetadate.settle, Segment.entry] at hbelow
    omega

/-- **The layout delivers every tensor's bytes.** -/
theorem Load.tensor_in_place (l : Load) {t : TensorMetadate} (ht : t ∈ l.layout.tensors) {k : ℕ}
    (hlast : t.lastChunkId ≤ k) (hpf : k ≤ t.prefetchChunkId) (file junk : ℕ → ℕ → α)
    (m : ℕ → α) {b : ℕ} (hb : b < t.size) :
    writeAll junk 0 ((l.layout.chunks.take (k + 1)).map (Chunk.write l.geometry file)) m
      (t.deviceBufferOffset + b) = file t.fileIndex (t.fileOffset + b) := by
  have hg := l.wf
  rw [l.layout_eq] at ht ⊢
  obtain ⟨σ, hσ, e, he, rfl⟩ := mem_settle_tensors.mp ht
  have hlap : Lap.Sound l.geometry (σ.lapBefore ++ σ.seg :: σ.lapAfter) :=
    l.plan_sound _ (hσ ▸ σ.mem_plan)
  obtain ⟨hbase, -, hstop⟩ := (hlap.segment σ.seg (by simp)).extents e he
  -- byte `b` of the tensor is byte `x` of the segment
  set x := e.1 - σ.seg.base + b with hx
  have hsize : b < e.2 - e.1 := hb
  have hxlen : x < σ.seg.len := by
    unfold Segment.len
    omega
  obtain ⟨hle, hin⟩ := Segment.lt_chunk_size hg hxlen
  have hpiece : x / l.geometry.worldChunkSize * l.geometry.worldChunkSize < σ.seg.len := by omega
  have hwrite := σ.chunk_at hg hpiece
  have haddr : (σ.tensor l.geometry 0 e).deviceBufferOffset + b
      = ((σ.seg.chunk l.geometry (x / l.geometry.worldChunkSize)).write l.geometry file).addr
        + (x - x / l.geometry.worldChunkSize * l.geometry.worldChunkSize) := by
    simp only [Site.tensor, TensorMetadate.settle, Segment.entry, Chunk.write, Segment.chunk,
      Segment.full]
    omega
  have hik : σ.first l.geometry + x / l.geometry.worldChunkSize ≤ k := by
    simp only [Site.tensor, TensorMetadate.settle, Segment.entry, Nat.zero_add] at hlast
    have := Nat.div_le_div_right (c := l.geometry.worldChunkSize)
      (show x ≤ e.2 - σ.seg.base - 1 by omega)
    omega
  rw [hσ] at hwrite
  rw [List.map_take, haddr, writeAll_take_of_last (i := σ.first l.geometry
    + x / l.geometry.worldChunkSize) (by rw [List.getElem?_map, hwrite]; rfl) hik hin]
  · simp only [Chunk.write, Segment.chunk, Segment.full, Site.tensor, TensorMetadate.settle,
      Segment.entry]
    congr 1
    omega
  · intro j w' hj hij hjk
    rw [List.getElem?_map, Option.map_eq_some_iff] at hj
    obtain ⟨c, hc, rfl⟩ := hj
    rw [Chunk.write_misses hg, ← haddr]
    have hdev : (σ.tensor l.geometry 0 e).deviceBufferOffset + b = σ.seg.dev + x := by
      simp only [Site.tensor, TensorMetadate.settle, Segment.entry]
      omega
    rw [hdev]
    exact σ.misses_after hg hlap he (by omega) hxlen (hσ ▸ hc) hij (by omega)

end

/-- The last byte of the second tensor of `twoLaps`, two chunks into the second lap. -/
theorem twoLaps_in_place :
    writeAll (fun _ _ => 0) 0
        ((twoLaps.layout.chunks.take 12).map (Chunk.write twoLaps.geometry fun f o => f + o))
        (fun _ => 0)
        (((twoLaps.layout.tensors[1]?).getD default).deviceBufferOffset + 19999)
      = ((twoLaps.layout.tensors[1]?).getD default).fileIndex
        + (((twoLaps.layout.tensors[1]?).getD default).fileOffset + 19999) :=
  twoLaps.tensor_in_place (t := (twoLaps.layout.tensors[1]?).getD default) (k := 11)
    (by decide +kernel) (by decide +kernel) (by decide +kernel) (fun f o => f + o) (fun _ _ => 0)
    (fun _ => 0) (by decide +kernel)

end InstantTensor
