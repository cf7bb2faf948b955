/-
# `InstantTensor.Delivery` — a tensor in use holds the bytes of its file

The invariant of the buffers follows the bytes of a chunk through a rank (`Rank.Stored`): a read
that has completed is in its buffer until its chunk is copied, a copied piece is in place on the
device until the streams are through with the chunk, what a rank sends is its piece, and a
chunk that has been delivered is in place wherever no later chunk overlaps it.  Each turn writes for
one chunk in flight only, and the other chunks in flight are elsewhere (`InstantTensor.Regions`);
a later chunk that overlaps a delivered one is beyond what the invariant speaks about.

A byte of a tensor is in a chunk that has been reaped, and no chunk up to the tensor's prefetch chunk
overlaps it.  So on every rank and in every interleaving of threads, kernel, streams and ranks, a
tensor that has been handed out holds its bytes as long as it is the current one
(`Load.tensors_hold_bytes`).
-/
import InstantTensor.Contents
import InstantTensor.Regions
import InstantTensor.Streams

namespace InstantTensor

/-! ## The buffers -/

section
variable {α : Type} {m : RankMemory α} {a : ℕ}

/-- The buffer that reads go to. -/
def RankMemory.readBuffer (backend : Backend) (m : RankMemory α) : ℕ → α :=
  match backend with
  | Backend.CUFILE => m.device
  | _ => m.host

theorem RankMemory.put_readBuffer (backend : Backend) (w : Write α) (junk : ℕ → α) :
    (m.put backend w junk).readBuffer backend = w.apply junk (m.readBuffer backend) := by
  cases backend <;> rfl

theorem RankMemory.put_device (backend : Backend) {w : Write α} (junk : ℕ → α)
    (h : backend = Backend.CUFILE → w.Misses a) : (m.put backend w junk).device a = m.device a := by
  cases backend with
  | CUFILE => exact Write.apply_of_misses (h rfl) junk m.device
  | _ => rfl

theorem RankMemory.copy_readBuffer (args : OpenArgs) (p : ChunkIOParams) :
    (m.copy args p).readBuffer args.backend = m.readBuffer args.backend := by
  unfold copy
  cases args.backend <;> rfl

theorem RankMemory.copy_device (args : OpenArgs) {p : ChunkIOParams}
    (h : a < p.rankDst ∨ p.rankDst + p.rankSize ≤ a) :
    (m.copy args p).device a = m.device a := by
  unfold copy
  cases args.backend with
  | CUFILE => rfl
  | _ => exact if_neg (by omega)

/-- The copy brings the piece of the rank from the host buffer to its place. -/
theorem RankMemory.copy_piece {args : OpenArgs} (hb : args.backend ≠ Backend.CUFILE)
    {p : ChunkIOParams} {b : ℕ} (h : b < p.rankSize) :
    (m.copy args p).device (p.rankDst + b) = m.host (p.windowOffset + b) := by
  unfold copy
  cases hbackend : args.backend with
  | CUFILE => exact absurd hbackend hb
  | _ =>
      simp only
      rw [if_pos ⟨Nat.le_add_right _ _, by omega⟩, Nat.add_sub_cancel_left]

theorem RankMemory.gather_device {worldSize : ℕ} {p : ChunkIOParams} {pieces : ℕ → ℕ → α}
    (h : a < p.allDst ∨ p.allDst + p.paddedRankSize * worldSize ≤ a) :
    (m.gather worldSize p pieces).device a = m.device a :=
  if_neg (by omega)

theorem RankMemory.gather_piece {worldSize : ℕ} {p : ChunkIOParams} {pieces : ℕ → ℕ → α} {b : ℕ}
    (h : b < p.paddedRankSize * worldSize) :
    (m.gather worldSize p pieces).device (p.allDst + b)
      = pieces (b / p.paddedRankSize) (b % p.paddedRankSize) := by
  refine (if_pos ⟨Nat.le_add_right _ _, Nat.add_lt_add_left h _⟩).trans ?_
  rw [Nat.add_sub_cancel_left, Nat.zero_add]

end

/-! ## The piece of a rank -/

/-- `piece` holds what rank `r` reads of chunk `c`. -/
def Load.Piece {α : Type} (l : Load) (file : ℕ → ℕ → α) (r c : ℕ) (chunk : Chunk)
    (piece : ℕ → α) : Prop :=
  ∀ b < (rankParams l.pageSize l.args c chunk r).rankSize,
    piece b = file chunk.fileIndex
      (chunk.fileOffset + (rankParams l.pageSize l.args c chunk r).rankOffset + b)

section
variable {α : Type} {l : Load} {file : ℕ → ℕ → α} {c : ℕ} {chunk : Chunk}

/-- The reads of a chunk together supply the piece of the rank. -/
theorem Load.piece_of_reads (hchunk : l.layout.chunks[c]? = some chunk) {m : ℕ → α}
    (h : ∀ rd ∈ l.reads c, ∀ b < rd.size,
      m (rd.bufferOffset + b) = file rd.fileIndex (rd.fileOffset + b)) :
    l.Piece file l.args.rank c chunk fun b => m ((l.params c chunk).readBase l.args + b) := by
  intro b hb
  have hpad := padded hchunk
  set p := l.params c chunk with hp
  have hsize : b < min (p.chunk.size - p.rankOffset) p.paddedRankSize := hb
  -- byte `b` is in slice `i`
  set i := b / p.paddedThreadSize with hi
  have hin : i < l.args.numThreads :=
    Nat.div_lt_of_lt_mul (hpad.rank_eq ▸ Nat.lt_of_lt_of_le hsize (min_le_right _ _))
  obtain ⟨hlo, hhi⟩ := (mem_piece_iff _ hpad.pos).mpr
    ⟨Nat.lt_of_lt_of_le hsize (min_le_left _ _), hi.symm⟩
  change p.threadOffset i ≤ b at hlo
  change b < p.threadOffset i + p.threadSize i at hhi
  have hpos : 0 < p.threadSize i := by omega
  have hlt : b - p.threadOffset i < p.threadSize i := by omega
  have hread := h _ (mem_reads.mpr ⟨chunk, hchunk, i, hin, hpos, rfl⟩) _ hlt
  rw [slice_bufferOffset] at hread
  have haddr : p.readBase l.args + p.threadOffset i + (b - p.threadOffset i)
      = p.readBase l.args + b := by omega
  rw [haddr] at hread
  refine hread.trans ?_
  change file chunk.fileIndex (chunk.fileOffset + p.rankOffset + p.threadOffset i
    + (b - p.threadOffset i)) = file chunk.fileIndex (chunk.fileOffset + p.rankOffset + b)
  congr 1
  omega

/-- A rank by itself reads the chunk. -/
theorem Load.Piece.alone (hr : l.args.rank < l.args.worldSize) (hw : ¬ 1 < l.args.worldSize)
    (hchunk : l.layout.chunks[c]? = some chunk) {m : ℕ → α}
    (h : l.Piece file l.args.rank c chunk fun b => m ((l.params c chunk).rankDst + b)) {b : ℕ}
    (hb : b < chunk.size) :
    m (chunk.deviceBufferOffset + b) = file chunk.fileIndex (chunk.fileOffset + b) := by
  have hworld : l.args.worldSize = 1 := by omega
  have hrank : l.args.rank = 0 := by omega
  have hholds := (padded hchunk).holds
  rw [hworld, Nat.mul_one] at hholds
  have hoffset : (l.params c chunk).rankOffset = 0 := by
    change (l.params c chunk).paddedRankSize * l.args.rank = 0
    rw [hrank, Nat.mul_zero]
  have hsize : (l.params c chunk).rankSize = chunk.size := by
    change min (chunk.size - (l.params c chunk).rankOffset) (l.params c chunk).paddedRankSize = _
    rw [hoffset]
    omega
  have hdst : (l.params c chunk).rankDst = chunk.deviceBufferOffset := by
    change chunk.deviceBufferOffset + (l.params c chunk).rankOffset = _
    rw [hoffset, Nat.add_zero]
  have hpiece := h b (show b < (l.params c chunk).rankSize by omega)
  simp only [hdst] at hpiece
  refine hpiece.trans ?_
  change file chunk.fileIndex (chunk.fileOffset + (l.params c chunk).rankOffset + b) = _
  rw [hoffset, Nat.add_zero]

/-- The pieces of all ranks together are the chunk. -/
theorem Load.Piece.gather (hchunk : l.layout.chunks[c]? = some chunk) {pieces : ℕ → ℕ → α}
    (h : ∀ q < l.args.worldSize, l.Piece file q c chunk (pieces q)) {m : RankMemory α} {b : ℕ}
    (hb : b < chunk.size) :
    (m.gather l.args.worldSize (l.params c chunk) pieces).device (chunk.deviceBufferOffset + b)
      = file chunk.fileIndex (chunk.fileOffset + b) := by
  have hpad := padded hchunk
  have hpos : 0 < (l.params c chunk).paddedRankSize :=
    hpad.rank_eq ▸ Nat.mul_pos hpad.pos l.admitted.numThreads_pos
  have hworld : b < (l.params c chunk).paddedRankSize * l.args.worldSize :=
    Nat.lt_of_lt_of_le hb hpad.holds
  obtain ⟨hlt, hsplit⟩ := @mod_lt_rankSize l.pageSize l.args c chunk
    (b / (l.params c chunk).paddedRankSize) b hb hpos rfl
  refine (RankMemory.gather_piece (p := l.params c chunk) hworld).trans ?_
  refine (h _ (Nat.div_lt_of_lt_mul hworld) _ hlt).trans ?_
  rw [Nat.add_assoc]
  exact congrArg _ (congrArg _ hsplit)

end

/-! ## The invariant of the buffers -/

/-- No chunk behind `c` up to `last` reaches address `a`. -/
def Load.Last (l : Load) (c : ℕ) (last : ℤ) (a : ℕ) : Prop :=
  ∀ (j : ℕ) (chunk : Chunk), c < j → (j : ℤ) ≤ last → l.layout.chunks[j]? = some chunk →
    a < chunk.deviceBufferOffset ∨ chunk.devStop l.geometry ≤ a

namespace Rank

variable {α : Type} {l : Load} {gets : List ℕ} {file : ℕ → ℕ → α} {sent : ℕ → List (ℕ → α)}
  {s s' : Rank α}

/-- No read has returned fewer bytes than its slice. -/
def Full (s : Rank α) : Prop := ∀ e ∈ s.pipeline.results, (e.1.size : ℤ) ≤ e.2

instance (s : Rank α) : Decidable s.Full :=
  inferInstanceAs (Decidable (∀ e ∈ s.pipeline.results, (e.1.size : ℤ) ≤ e.2))

structure Stored (l : Load) (file : ℕ → ℕ → α) (s : Rank α) : Prop where
  landed : ∀ e ∈ s.pipeline.results, s.copied < e.1.chunkId → ∀ b < e.1.size,
    s.memory.readBuffer l.args.backend (e.1.bufferOffset + b)
      = file e.1.fileIndex (e.1.fileOffset + b)
  copied : ∀ (c : ℕ) (chunk : Chunk), l.layout.chunks[c]? = some chunk → s.delivered < c →
    (c : ℤ) ≤ s.copied → l.Piece file l.args.rank c chunk
      fun b => s.memory.device ((l.params c chunk).rankDst + b)
  delivered : ∀ (c : ℕ) (chunk : Chunk), l.layout.chunks[c]? = some chunk → (c : ℤ) ≤ s.delivered →
    ∀ b < chunk.size,
      l.Last c s.pipeline.loader.chunkReading (chunk.deviceBufferOffset + b) →
        s.memory.device (chunk.deviceBufferOffset + b)
          = file chunk.fileIndex (chunk.fileOffset + b)

/-- What the step lemmas share: the books, the queues, and the separation of chunks in flight. -/
structure Sound (l : Load) (gets : List ℕ) (s : Rank α) : Prop where
  pipeline : Pipeline.Kept l gets s.pipeline
  streamed : s.Streamed l
  spread : Loader.Spread l s.pipeline.loader
  rank : l.args.rank < l.args.worldSize

namespace Sound

variable (h : Sound l gets s)
include h

/-- Reaping does not get ahead of the streams. -/
theorem read_le : s.pipeline.loader.chunkRead ≤ s.delivered := by
  refine Int.le_trans ?_ h.streamed.done_le
  have hdone : s.done ≤ s.pipeline.loader.chunkReading := by
    unfold done
    omega
  rcases Int.lt_or_eq_of_le hdone with hlt | heq
  · have hmem : s.done + 1 ∈ s.pipeline.waiting := by
      rw [h.streamed.waiting, mem_span]
      omega
    have := (h.pipeline.accounted.between _ hmem).1
    omega
  · exact heq ▸ h.pipeline.ge.2

/-- A chunk the streams are not through with is in flight. -/
theorem inFlight {c : ℕ} (hlo : s.delivered < c) (hhi : (c : ℤ) ≤ s.pipeline.loader.chunkReading) :
    s.pipeline.loader.chunkRead < c ∧ (c : ℤ) ≤ s.pipeline.loader.chunkReading :=
  ⟨Int.lt_of_le_of_lt h.read_le hlo, hhi⟩

/-- A read in flight belongs to a chunk that is still at `cuda_thread`. -/
theorem flying {r : Read} (hr : r ∈ s.pipeline.inFlight) : ∃ c : ℕ, r ∈ l.reads c ∧
    s.launched < c ∧ (c : ℤ) ≤ s.pipeline.loader.chunkReading := by
  obtain ⟨htask, c, hc, hmem⟩ := h.pipeline.read_of_inFlight hr
  rw [h.streamed.tasks, mem_span] at htask
  exact ⟨c, hmem, by omega⟩

end Sound

/-- A rank by itself is through with what it has copied. -/
theorem Streamed.delivered_alone (h : Streamed l s) (hw : ¬ 1 < l.args.worldSize) :
    s.delivered = s.copied := by
  unfold delivered copied
  rw [(h.gathers_alone hw).1, List.length_nil]
  omega

/-- In a group, the next chunk to be delivered is that of the next all-gather. -/
theorem Streamed.delivered_gathered (h : Streamed l s) (hw : 1 < l.args.worldSize) :
    s.delivered = s.gathered.length - 1 := by
  have hlen := h.length_gathered hw
  have hcopied := h.sent_copied
  have hsent := h.sent_ge
  unfold delivered copied at *
  omega

/-- A turn that ends no all-gather. -/
theorem Streamed.delivered_step (h : Streamed l s) (h' : Streamed l s')
    (hgathered : s'.gathered = s.gathered) :
    s'.delivered = s.delivered ∨ ¬ 1 < l.args.worldSize ∧ s'.delivered = s'.copied := by
  by_cases hw : 1 < l.args.worldSize
  · left
    rw [h.delivered_gathered hw, h'.delivered_gathered hw, hgathered]
  · exact .inr ⟨hw, h'.delivered_alone hw⟩

namespace Stored

/-! ### A turn that writes nothing -/

theorem frame (h : Stored l file s) (hmemory : s'.memory = s.memory)
    (hresults : ∀ e ∈ s'.pipeline.results, e ∈ s.pipeline.results)
    (hreading : s.pipeline.loader.chunkReading ≤ s'.pipeline.loader.chunkReading)
    (hcopied : s'.copied = s.copied) (hdelivered : s'.delivered = s.delivered) :
    Stored l file s' where
  landed := by
    intro e he hgt
    rw [hmemory]
    exact h.landed e (hresults e he) (hcopied ▸ hgt)
  copied := by
    intro c chunk hchunk hgt hle
    rw [hmemory]
    exact h.copied c chunk hchunk (hdelivered ▸ hgt) (hcopied ▸ hle)
  delivered := by
    intro c chunk hchunk hle b hb hlast
    rw [hmemory]
    exact h.delivered c chunk hchunk (hdelivered ▸ hle) b hb
      fun j chunk' hj hjle => hlast j chunk' hj (Int.le_trans hjle hreading)

/-! ### Reads -/

/-- A read writes to its buffer: when it completes, and while it is in flight. -/
theorem put (hs : Sound l gets s) (h : Stored l file s) {r : Read} (hr : r ∈ s.pipeline.inFlight)
    (result : ℤ) (junk : ℕ → α)
    (hmemory : s'.memory = s.memory.put l.args.backend (r.landed file result) junk)
    (hresults : ∀ e ∈ s'.pipeline.results, e ∈ s.pipeline.results ∨
      e = (r, result) ∧ (r.size : ℤ) ≤ result)
    (hreading : s'.pipeline.loader.chunkReading = s.pipeline.loader.chunkReading)
    (hcopied : s'.copied = s.copied) (hdelivered : s'.delivered = s.delivered) :
    Stored l file s' := by
  obtain ⟨c, hrc, hlaunched, hle⟩ := hs.flying hr
  obtain ⟨hdel, hcop, -⟩ := Streamed.delivered_le s
  have hflying := hs.inFlight (c := c) (by omega) hle
  -- on the device it stays in the range of its chunk
  have hdevice : ∀ a, (∀ chunk, l.layout.chunks[c]? = some chunk →
      a < chunk.deviceBufferOffset ∨ chunk.devStop l.geometry ≤ a) →
      s'.memory.device a = s.memory.device a := by
    intro a ha
    rw [hmemory]
    refine RankMemory.put_device _ junk fun hb => ?_
    obtain ⟨chunk, hchunk, hinside⟩ := Load.reads_inside_device hb hs.rank hrc
    exact hinside.landed_misses (ha chunk hchunk) result
  constructor
  case landed =>
    intro e he hgt b hb
    rw [hmemory, RankMemory.put_readBuffer]
    rcases hresults e he with hold | ⟨rfl, hfull⟩
    · obtain ⟨c', hid, hle', hmem⟩ := hs.pipeline.read_of_results hold
      have hne := hs.pipeline.inFlight_ne hr hold
      rw [Write.apply_of_misses (hs.spread.read_misses hs.rank hmem hrc hne
        (hs.inFlight (by omega) hle') hflying hb result)]
      exact h.landed e hold (hcopied ▸ hgt) b hb
    · -- the read that completes
      have hlen : b < (r.landed file result).len := by
        simp only [Read.landed] at hb ⊢
        omega
      exact Write.apply_add hlen _ _
  case copied =>
    intro c' chunk hchunk hgt hle' b hb
    obtain ⟨hlo, hhi⟩ := l.rank_piece_le hs.rank c' chunk
    have hsize : (l.params c' chunk).rankSize ≤ (l.params c' chunk).paddedRankSize :=
      min_le_right _ _
    change b < (l.params c' chunk).rankSize at hb
    simp only
    rw [hdevice _ fun chunk' hchunk' => ?_]
    · exact h.copied c' chunk hchunk (hdelivered ▸ hgt) (hcopied ▸ hle') b hb
    · exact hs.spread.device_apart (by omega) (hs.inFlight (hdelivered ▸ hgt) (by omega)) hflying
        hchunk hchunk' (by omega) (by omega)
  case delivered =>
    intro c' chunk hchunk hle' b hb hlast
    rw [hdevice _ fun chunk' hchunk' => hlast c chunk' (by omega) (by omega) hchunk']
    exact h.delivered c' chunk hchunk (hdelivered ▸ hle') b hb (hreading ▸ hlast)

/-! ### Copies -/

/-- The next chunk is in place on the device, and nothing else has changed there. -/
theorem advance (hs : Sound l gets s) (h : Stored l file s) {c : ℕ} {chunk : Chunk}
    (hc : (c : ℤ) = s.copied + 1) (hle : (c : ℤ) ≤ s.pipeline.loader.chunkReading)
    (hchunk : l.layout.chunks[c]? = some chunk)
    (hresults : ∀ e ∈ s'.pipeline.results, e ∈ s.pipeline.results)
    (hreading : s'.pipeline.loader.chunkReading = s.pipeline.loader.chunkReading)
    (hcopied : s'.copied = s.copied + 1)
    (hdelivered : s'.delivered = s.delivered ∨
      ¬ 1 < l.args.worldSize ∧ s'.delivered = s.copied + 1)
    (hbuffer : s'.memory.readBuffer l.args.backend = s.memory.readBuffer l.args.backend)
    (hdevice : ∀ a, a < chunk.deviceBufferOffset ∨ chunk.devStop l.geometry ≤ a →
      s'.memory.device a = s.memory.device a)
    (hpiece : l.Piece file l.args.rank c chunk
      fun b => s'.memory.device ((l.params c chunk).rankDst + b)) : Stored l file s' := by
  obtain ⟨hdel, -, -⟩ := Streamed.delivered_le s
  have hflying := hs.inFlight (c := c) (by omega) hle
  constructor
  case landed =>
    intro e he hgt b hb
    rw [hbuffer]
    exact h.landed e (hresults e he) (by omega) b hb
  case copied =>
    intro c' chunk' hchunk' hgt hle'
    by_cases heq : c' = c
    · subst heq
      cases hchunk.symm.trans hchunk'
      exact hpiece
    · intro b hb
      obtain ⟨hlo, hhi⟩ := l.rank_piece_le hs.rank c' chunk'
      have hsize : (l.params c' chunk').rankSize ≤ (l.params c' chunk').paddedRankSize :=
        min_le_right _ _
      change b < (l.params c' chunk').rankSize at hb
      simp only
      rw [hdevice _ ?_]
      · exact h.copied c' chunk' hchunk' (by omega) (by omega) b hb
      · exact hs.spread.device_apart heq (hs.inFlight (by omega) (by omega)) hflying hchunk' hchunk
          (by omega) (by omega)
  case delivered =>
    intro c' chunk' hchunk' hle' b hb hlast
    by_cases heq : c' = c
    · subst heq
      cases hchunk.symm.trans hchunk'
      have hw : ¬ 1 < l.args.worldSize := by
        rcases hdelivered with hsame | hw
        · omega
        · exact hw.1
      exact hpiece.alone hs.rank hw hchunk hb
    · have hold : (c' : ℤ) ≤ s.delivered := by
        rcases hdelivered with hsame | ⟨hw, hnow⟩
        · omega
        · have halone := hs.streamed.delivered_alone hw
          omega
      rw [hdevice _ (hlast c chunk (by omega) (by omega) hchunk)]
      exact h.delivered c' chunk' hchunk' hold b hb (hreading ▸ hlast)

/-- Behind the task of a chunk, its reads have supplied the piece of the rank. -/
theorem piece_landed (h : Stored l file s) {pipeline : Pipeline} {c : ℕ}
    {chunk : Chunk} (hkept : Pipeline.Kept l gets pipeline)
    (hresults : ∀ e ∈ pipeline.results, e ∈ s.pipeline.results)
    (hchunk : l.layout.chunks[c]? = some chunk) (hgt : s.copied < c)
    (htask : (c : ℤ) ∉ pipeline.tasks.map Task.chunkId) (hle : (c : ℤ) ≤ pipeline.loader.chunkReading) :
    l.Piece file l.args.rank c chunk
      fun b => s.memory.readBuffer l.args.backend ((l.params c chunk).readBase l.args + b) := by
  refine Load.piece_of_reads hchunk fun rd hrd b hb => ?_
  obtain ⟨result, he⟩ := hkept.result_of_read htask hle hrd
  have hid : rd.chunkId = c := Load.chunkId_of_mem_reads hrd
  exact h.landed _ (hresults _ he) (by simpa only [hid] using hgt) b hb

/-- The task of CUFILE ends: what its reads have put on the device is the piece of the rank. -/
theorem launch (hs : Sound l gets s) (h : Stored l file s) {pipeline : Pipeline} {task : Task}
    {p : ChunkIOParams} (hkept : Pipeline.Kept l gets pipeline)
    (htasks : s.pipeline.tasks = task :: pipeline.tasks)
    (hloader : pipeline.loader = s.pipeline.loader)
    (hresults : ∀ e, e ∈ pipeline.results ↔ e ∈ s.pipeline.results)
    (hs' : Streamed l { s with
      pipeline
      copies := if l.args.backend = Backend.CUFILE then s.copies else s.copies ++ [p]
      gathers := if 1 < l.args.worldSize then s.gathers ++ [p] else s.gathers }) :
    Stored l file { s with
      pipeline
      copies := if l.args.backend = Backend.CUFILE then s.copies else s.copies ++ [p]
      gathers := if 1 < l.args.worldSize then s.gathers ++ [p] else s.gathers } := by
  set s₁ : Rank α := { s with
    pipeline
    copies := if l.args.backend = Backend.CUFILE then s.copies else s.copies ++ [p]
    gathers := if 1 < l.args.worldSize then s.gathers ++ [p] else s.gathers } with hs₁
  have hreading : s₁.pipeline.loader.chunkReading = s.pipeline.loader.chunkReading :=
    congrArg Loader.chunkReading hloader
  have hlen : s.pipeline.tasks.length = pipeline.tasks.length + 1 := congrArg List.length htasks
  have hlaunched : s₁.launched = s.launched + 1 := by
    simp only [launched, hs₁, hloader, hlen]
    omega
  have hstep := hs.streamed.delivered_step hs' rfl
  have hresults' : ∀ e ∈ s₁.pipeline.results, e ∈ s.pipeline.results := fun e he =>
    (hresults e).mp he
  by_cases hb : l.args.backend = Backend.CUFILE
  · have hcopies : s.copies = [] := hs.streamed.cufile hb
    have hbefore : s.copied = s.launched := by
      rw [Rank.copied, hcopies, List.length_nil]
      omega
    have hafter : s₁.copied = s.copied + 1 := by
      rw [Rank.copied, hs'.cufile hb, List.length_nil, hlaunched, hbefore]
      omega
    have htop := (Streamed.delivered_le s₁).2.2
    have hge := hs.streamed.done_ge
    have hdel := Int.le_trans hs.streamed.done_le (Streamed.delivered_le s).1
    obtain ⟨c, hc⟩ : ∃ c : ℕ, (c : ℤ) = s.copied + 1 := ⟨(s.copied + 1).toNat, by omega⟩
    obtain ⟨chunk, -, hchunk⟩ := hs.pipeline.chunk_of_posted (c := c) (by omega) (by omega)
    rw [Int.toNat_natCast] at hchunk
    refine advance hs h hc (by omega) hchunk hresults' hreading hafter ?_ rfl
      (fun _ _ => rfl) ?_
    · exact hstep.imp_right fun hw => ⟨hw.1, hw.2.trans hafter⟩
    · have hpiece := piece_landed h hkept (fun e he => (hresults e).mp he) hchunk (by omega)
        (by
          change (c : ℤ) ∉ s₁.pipeline.tasks.map Task.chunkId
          rw [hs'.tasks, mem_span]
          omega) (by
          change (c : ℤ) ≤ s₁.pipeline.loader.chunkReading
          omega)
      have hbase : (l.params c chunk).readBase l.args = (l.params c chunk).rankDst := by
        rw [ChunkIOParams.readBase, hb]
        rfl
      rw [hbase, hb] at hpiece
      exact hpiece
  · have hqueue : s₁.copies.length = s.copies.length + 1 := by
      simp only [hs₁, if_neg hb, List.length_append, List.length_singleton]
    have hafter : s₁.copied = s.copied := by
      unfold Rank.copied
      rw [hlaunched, hqueue]
      omega
    refine frame h rfl hresults' (Int.le_of_eq hreading.symm) hafter ?_
    rcases hstep with hsame | ⟨hw, hnow⟩
    · exact hsame
    · rw [hnow, hafter, hs.streamed.delivered_alone hw]

/-- `cuda_stream` copies the piece of the next chunk. -/
theorem copy (hs : Sound l gets s) (h : Stored l file s) {p : ChunkIOParams}
    {copies : List ChunkIOParams} (hcopies : s.copies = p :: copies)
    (hs' : Streamed l { s with copies, memory := s.memory.copy l.args p }) :
    Stored l file { s with copies, memory := s.memory.copy l.args p } := by
  have hb : l.args.backend ≠ Backend.CUFILE := by
    intro hb
    rw [hs.streamed.cufile hb] at hcopies
    cases hcopies
  obtain ⟨hge, chunk, hchunk, hp⟩ := hs.streamed.params p (by simp [hcopies])
  obtain ⟨c, hc⟩ := Int.eq_ofNat_of_zero_le hge
  rw [hc, Int.toNat_natCast] at hchunk
  have hp : p = l.params c chunk := hp.trans (by rw [hc]; rfl)
  have hspan := hs.streamed.copies
  rw [hcopies, List.map_cons] at hspan
  obtain ⟨hlt, hnext, -⟩ := span_eq_cons hspan.symm
  have hlen : s.copies.length = copies.length + 1 := congrArg List.length hcopies
  have hafter : ({ s with copies, memory := s.memory.copy l.args p } : Rank α).copied
      = s.copied + 1 := by
    simp only [Rank.copied, launched, hlen]
    omega
  have htop := (Streamed.delivered_le s).2.2
  have hstep := hs.streamed.delivered_step hs' rfl
  obtain ⟨hlo, hhi⟩ := l.rank_piece_le hs.rank c chunk
  have hsize : (l.params c chunk).rankSize ≤ (l.params c chunk).paddedRankSize := min_le_right _ _
  refine advance hs h (by omega) (by omega) hchunk (fun _ he => he) rfl hafter ?_
    (RankMemory.copy_readBuffer l.args p) ?_ ?_
  · exact hstep.imp_right fun hw => ⟨hw.1, hw.2.trans hafter⟩
  · intro a ha
    refine RankMemory.copy_device l.args ?_
    rw [hp]
    omega
  · have hpiece := piece_landed h hs.pipeline (fun _ he => he) hchunk (by omega)
      (by
        rw [hs.streamed.tasks, mem_span]
        omega) (by omega)
    have hbase : ∀ b, s.memory.readBuffer l.args.backend ((l.params c chunk).readBase l.args + b)
        = s.memory.host ((l.params c chunk).windowOffset + b) := by
      intro b
      unfold RankMemory.readBuffer ChunkIOParams.readBase
      cases hbackend : l.args.backend <;> first | rfl | exact absurd hbackend hb
    intro b hlt
    refine Eq.trans ?_ (hpiece b hlt)
    simp only
    rw [hbase, hp]
    exact RankMemory.copy_piece hb hlt

/-! ### All-gathers -/

/-- What a rank sends next is its piece of the chunk. -/
theorem send (hs : Sound l gets s) (h : Stored l file s) {p : ChunkIOParams}
    {gathers : List ChunkIOParams} (hgathers : s.gathers = p :: gathers)
    (hcopied : (s.gathered.length : ℤ) ≤ s.copied) {chunk : Chunk}
    (hchunk : l.layout.chunks[s.gathered.length]? = some chunk) :
    l.Piece file l.args.rank s.gathered.length chunk fun i => s.memory.device (p.rankDst + i) := by
  obtain ⟨hw, hid⟩ := hs.streamed.gathers_head hgathers
  obtain ⟨-, chunk', hchunk', hp⟩ := hs.streamed.params p (by simp [hgathers])
  rw [hid, Int.toNat_natCast] at hchunk'
  cases hchunk.symm.trans hchunk'
  have hp : p = l.params s.gathered.length chunk := hp.trans (by rw [hid]; rfl)
  have hdelivered := hs.streamed.delivered_gathered hw
  rw [hp]
  exact h.copied _ chunk hchunk (by omega) hcopied

theorem receive (hs : Sound l gets s) (h : Stored l file s) {p : ChunkIOParams}
    {gathers : List ChunkIOParams} {pieces : ℕ → ℕ → α} (hgathers : s.gathers = p :: gathers)
    (hpieces : ∀ q < l.args.worldSize, ∀ chunk,
      l.layout.chunks[s.gathered.length]? = some chunk →
        l.Piece file q s.gathered.length chunk (pieces q))
    (hs' : Streamed l { s with
      gathers
      gathered := s.gathered ++ [p]
      memory := s.memory.gather l.args.worldSize p pieces }) :
    Stored l file { s with
      gathers
      gathered := s.gathered ++ [p]
      memory := s.memory.gather l.args.worldSize p pieces } := by
  obtain ⟨hw, hid⟩ := hs.streamed.gathers_head hgathers
  obtain ⟨-, chunk, hchunk, hp⟩ := hs.streamed.params p (by simp [hgathers])
  rw [hid, Int.toNat_natCast] at hchunk
  have hp : p = l.params s.gathered.length chunk := hp.trans (by rw [hid]; rfl)
  set c := s.gathered.length with hc
  have hbefore := hs.streamed.delivered_gathered hw
  have hafter := hs'.delivered_gathered hw
  have htop := Streamed.delivered_le s
  have hcopied := (Streamed.delivered_le { s with
    gathers
    gathered := s.gathered ++ [p]
    memory := s.memory.gather l.args.worldSize p pieces }).1
  set s₁ : Rank α := { s with
    gathers
    gathered := s.gathered ++ [p]
    memory := s.memory.gather l.args.worldSize p pieces } with hs₁
  have hsame : s₁.copied = s.copied := rfl
  have hreading : s₁.pipeline.loader.chunkReading = s.pipeline.loader.chunkReading := rfl
  have hnow : s₁.delivered = c := by
    rw [hafter]
    simp only [hs₁, List.length_append, List.length_singleton]
    omega
  have hflying := hs.inFlight (c := c) (by omega) (by omega)
  have hstop := l.paddedRankSize_mul c chunk
  have hdevice : ∀ a, a < chunk.deviceBufferOffset ∨ chunk.devStop l.geometry ≤ a →
      s₁.memory.device a = s.memory.device a := by
    intro a ha
    refine RankMemory.gather_device ?_
    rw [hp]
    exact hstop ▸ ha
  constructor
  case landed =>
    intro e he hgt b hb
    by_cases hbackend : l.args.backend = Backend.CUFILE
    · -- a read of CUFILE that is not taken yet is elsewhere on the device
      obtain ⟨c', hid', hle', hmem⟩ := hs.pipeline.read_of_results he
      obtain ⟨chunk', hchunk', hlo, hhi⟩ := Load.reads_inside_device hbackend hs.rank hmem
      have hold := h.landed e he hgt b hb
      rw [hbackend] at hold ⊢
      refine (hdevice _ ?_).trans hold
      exact hs.spread.device_apart (by omega) (hs.inFlight (by omega) hle') hflying hchunk' hchunk
        (by omega) (by omega)
    · have hbuffer : s₁.memory.readBuffer l.args.backend = s.memory.readBuffer l.args.backend := by
        unfold RankMemory.readBuffer
        cases hb' : l.args.backend <;> first | rfl | exact absurd hb' hbackend
      rw [hbuffer]
      exact h.landed e he hgt b hb
  case copied =>
    intro c' chunk' hchunk' hgt hle' b hb
    obtain ⟨hlo, hhi⟩ := l.rank_piece_le hs.rank c' chunk'
    have hsize : (l.params c' chunk').rankSize ≤ (l.params c' chunk').paddedRankSize :=
      min_le_right _ _
    change b < (l.params c' chunk').rankSize at hb
    simp only
    rw [hdevice _ ?_]
    · exact h.copied c' chunk' hchunk' (by omega) hle' b hb
    · exact hs.spread.device_apart (by omega) (hs.inFlight (by omega) (by omega)) hflying hchunk'
        hchunk (by omega) (by omega)
  case delivered =>
    intro c' chunk' hchunk' hle' b hb hlast
    rcases Int.lt_or_eq_of_le (hnow ▸ hle') with hlt | heq
    · rw [hdevice _ (hlast c chunk (by omega) (by omega) hchunk)]
      exact h.delivered c' chunk' hchunk' (by omega) b hb hlast
    · have heq : c' = c := by omega
      subst heq
      cases hchunk.symm.trans hchunk'
      simp only [hs₁, hp]
      exact Load.Piece.gather hchunk (fun q hq => hpieces q hq chunk hchunk) hb

/-- A rank that moves keeps its buffers, when what it receives are pieces of the chunk. -/
theorem moved (hs : Sound l gets s) (h : Stored l file s)
    (hkept : Pipeline.Kept l gets s'.pipeline) (hfull : Full s')
    (hopen : s'.pipeline.loader.stop = false)
    (hsent : sent l.args.rank = s.sent) (hmoved : Moved l file sent s s')
    (hpieces : ∀ q < l.args.worldSize, ∀ (c : ℕ) (chunk : Chunk) (piece : ℕ → α),
      l.layout.chunks[c]? = some chunk → (sent q)[c]? = some piece → l.Piece file q c chunk piece) :
    Stored l file s' := by
  have hs' := hs.streamed.moved hs.rank hsent hmoved
  cases hmoved with
  | same hsame =>
      have hlen : _ = _ := congrArg List.length hsame.tasks
      rw [List.length_map, List.length_map] at hlen
      refine frame h rfl (fun e he => (hsame.results e).mp he) (Int.le_of_eq hsame.reading.symm) ?_ ?_
      · simp only [Rank.copied, launched, hsame.reading, hlen]
      · simp only [Rank.delivered, launched, hsame.reading, hlen]
  | close junk hsame _ hstop =>
      exact absurd (hopen.symm.trans hstop) (by decide)
  | post htasks hwaiting hreading _ _ hresults =>
      have hlen : _ = _ := congrArg List.length htasks
      rw [List.length_map, List.length_append, List.length_map, List.length_singleton] at hlen
      refine frame h rfl (fun e he => (hresults e).mp he) ?_ ?_ ?_
      · simp only [hreading]
        omega
      · simp only [Rank.copied, launched, hreading, hlen]
        omega
      · simp only [Rank.delivered, launched, hreading, hlen]
        omega
  | @complete pipeline r result junk hr hle htasks hwaiting hloader hresults =>
      refine put hs h hr result junk rfl (fun e he => ?_) (congrArg _ hloader) ?_ ?_
      · rcases (hresults e).mp he with rfl | hold
        · exact .inr ⟨rfl, hfull _ he⟩
        · exact .inl hold
      · simp only [Rank.copied, launched, hloader, htasks]
      · simp only [Rank.delivered, launched, hloader, htasks]
  | launch htasks hwaiting hloader hresults hp hid =>
      exact launch hs h hkept htasks hloader hresults hs'
  | waited htasks hwaiting hloader hresults hnot hsync =>
      refine frame h rfl (fun e he => (hresults e).mp he) ?_ ?_ ?_
      · simp only [hloader, Int.le_refl]
      · simp only [Rank.copied, launched, hloader, htasks]
      · simp only [Rank.delivered, launched, hloader, htasks]
  | transfer junk hr =>
      exact put hs h hr 0 junk rfl (fun e he => .inl he) rfl rfl rfl
  | copy hcopies => exact copy hs h hcopies hs'
  | send => exact frame h rfl (fun _ he => he) (Int.le_refl _) rfl rfl
  | receive hgathers hreceived =>
      exact receive hs h hgathers
        (fun q hq chunk hchunk => hpieces q hq _ chunk _ hchunk (hreceived q hq)) hs'

end Stored

/-- Completed reads stay completed. -/
theorem Moved.results (hmoved : Moved l file sent s s') :
    ∀ e ∈ s.pipeline.results, e ∈ s'.pipeline.results := by
  intro e he
  cases hmoved with
  | same hsame => exact (hsame.results e).mpr he
  | close _ hsame => exact (hsame.results e).mpr he
  | post _ _ _ _ _ hresults => exact (hresults e).mpr he
  | complete _ _ _ _ _ _ hresults => exact (hresults e).mpr (.inr he)
  | launch _ _ _ hresults => exact (hresults e).mpr he
  | waited _ _ _ hresults => exact (hresults e).mpr he
  | _ => exact he

theorem Moved.open (hmoved : Moved l file sent s s') (hopen : s'.pipeline.loader.stop = false) :
    s.pipeline.loader.stop = false := by
  cases hmoved with
  | same _ hstop => exact hstop.symm.trans hopen
  | close _ _ hbefore => exact hbefore
  | post _ _ _ _ hbefore => exact hbefore
  | complete _ _ _ _ _ hloader => exact hloader ▸ hopen
  | launch _ _ hloader => exact hloader ▸ hopen
  | waited _ _ hloader => exact hloader ▸ hopen
  | _ => exact hopen

/-- Until `CLOSE` frees them, the buffers hold what they should, and what the rank has sent are its
pieces. -/
structure Intact (l : Load) (file : ℕ → ℕ → α) (s : Rank α) : Prop where
  stored : s.pipeline.loader.stop = false → Stored l file s
  sent : ∀ (c : ℕ) (chunk : Chunk) (piece : ℕ → α), l.layout.chunks[c]? = some chunk →
    s.sent[c]? = some piece → l.Piece file l.args.rank c chunk piece

theorem Intact.moved (hs : Sound l gets s) (h : Intact l file s)
    (hkept : Pipeline.Kept l gets s'.pipeline) (hfull : Full s')
    (hsent : sent l.args.rank = s.sent) (hmoved : Moved l file sent s s')
    (hpieces : ∀ q < l.args.worldSize, ∀ (c : ℕ) (chunk : Chunk) (piece : ℕ → α),
      l.layout.chunks[c]? = some chunk → (sent q)[c]? = some piece → l.Piece file q c chunk piece) :
    Intact l file s' where
  stored := fun hopen =>
    (h.stored (hmoved.open hopen)).moved hs hkept hfull hopen hsent hmoved hpieces
  sent := by
    have hs' := hs.streamed.moved hs.rank hsent hmoved
    cases hmoved with
    | @send p gathers hgathers hlen =>
        have hcopied := hs'.sent_copied
        change ((s.sent ++ [fun i => s.memory.device (p.rankDst + i)]).length : ℤ) - 1 ≤ s.copied
          at hcopied
        rw [List.length_append, List.length_singleton] at hcopied
        -- a closed rank has no all-gather left
        have hopen : s.pipeline.loader.stop = false := by
          by_contra hstop
          have hidle := hs.streamed.idle (hs.streamed.closed (by simpa using hstop))
          rw [hidle] at hgathers
          cases hgathers
        intro c chunk piece hchunk hpiece
        rcases Nat.lt_or_ge c s.sent.length with hlt | hge
        · rw [List.getElem?_append_left hlt] at hpiece
          exact h.sent c chunk piece hchunk hpiece
        · rw [List.getElem?_append_right hge] at hpiece
          obtain ⟨hzero, rfl⟩ := List.getElem?_eq_some_iff.mp hpiece
          have hc : c = s.gathered.length := by
            simp only [List.length_singleton] at hzero
            omega
          subst hc
          simpa only [hlen, Nat.sub_self, List.getElem_cons_zero] using
            (h.stored hopen).send hs hgathers (by omega) hchunk
    | _ => exact h.sent

end Rank

/-! ## Runs of the group -/

/-- A byte of a tensor is a byte of a chunk up to its last one, and no chunk behind that up to its
prefetch chunk reaches it. -/
theorem Load.byte_home (l : Load) {t : TensorMetadate} (ht : t ∈ l.layout.tensors) {b : ℕ}
    (hb : b < t.size) : ∃ (c : ℕ) (chunk : Chunk) (y : ℕ), l.layout.chunks[c]? = some chunk ∧
      (c : ℤ) ≤ t.lastChunkId ∧ y < chunk.size ∧
      t.deviceBufferOffset + b = chunk.deviceBufferOffset + y ∧ t.fileIndex = chunk.fileIndex ∧
      t.fileOffset + b = chunk.fileOffset + y ∧
      l.Last c t.prefetchChunkId (t.deviceBufferOffset + b) := by
  have hg := l.wf
  unfold Load.Last
  rw [l.layout_eq] at ht ⊢
  obtain ⟨σ, hσ, e, he, rfl⟩ := mem_settle_tensors.mp ht
  have hlap : Lap.Sound l.geometry (σ.lapBefore ++ σ.seg :: σ.lapAfter) :=
    l.plan_sound _ (hσ ▸ σ.mem_plan)
  obtain ⟨hbase, -, hstop⟩ := (hlap.segment σ.seg (by simp)).extents e he
  have hsize : b < e.2 - e.1 := hb
  -- byte `b` of the tensor is byte `x` of the segment
  obtain ⟨x, hx⟩ : ∃ x, x = e.1 - σ.seg.base + b := ⟨_, rfl⟩
  have hxlen : x < σ.seg.len := by
    unfold Segment.len
    omega
  obtain ⟨hle, hin⟩ := Segment.lt_chunk_size hg hxlen
  have hchunk := σ.chunk_at hg (Nat.lt_of_le_of_lt hle hxlen)
  have hdev : (σ.tensor l.geometry 0 e).deviceBufferOffset + b = σ.seg.dev + x := by
    simp only [Site.tensor, TensorMetadate.settle, Segment.entry]
    omega
  have hdiv := Nat.div_le_div_right (c := l.geometry.worldChunkSize)
    (show x ≤ e.2 - σ.seg.base - 1 by omega)
  refine ⟨_, _, _, hσ ▸ hchunk, ?_, hin, ?_, rfl, ?_, ?_⟩
  · simp only [Site.tensor, TensorMetadate.settle, Segment.entry]
    omega
  · rw [hdev]
    simp only [Segment.chunk, Segment.full]
    omega
  · simp only [Segment.chunk, Segment.full, Site.tensor, TensorMetadate.settle, Segment.entry]
    omega
  · intro j chunk hj hjle hjchunk
    rw [hdev]
    exact σ.misses_after hg hlap he (by omega) hxlen (hσ ▸ hjchunk) hj hjle

section
variable {α : Type} {l : Load} {backends : ℕ → Backend} {ns : ℕ → ℕ} {file : ℕ → ℕ → α}
  {memory : ℕ → RankMemory α} {s s' : ℕ → Rank α}

theorem Ranks.KeptAt.sound (hg : l.CollisionsGuarded) {r : ℕ} (hr : r < l.args.worldSize)
    (h : KeptAt l backends (fun r => List.range (ns r)) s r) :
    Rank.Sound (l.atRank (backends r) r) (List.range (ns r)) (s r) where
  pipeline := h.pipeline
  streamed := h.streamed
  spread := Load.run_spread (l := l.atRank (backends r) r) hg h.pipeline.loader
  rank := hr

theorem Load.run_intact (hg : l.CollisionsGuarded)
    (h : Run (Ranks.next l backends file) (l.ranks backends (fun r => List.range (ns r)) memory) s)
    (hfull : ∀ r < l.args.worldSize, (s r).Full) :
    ∀ r < l.args.worldSize, (s r).Intact (l.atRank (backends r) r) file := by
  refine (Run.invariant (P := fun s =>
    (∀ r < l.args.worldSize, Ranks.KeptAt l backends (fun r => List.range (ns r)) s r) ∧
      ((∀ r < l.args.worldSize, (s r).Full) →
        ∀ r < l.args.worldSize, (s r).Intact (l.atRank (backends r) r) file)) ?_ h
    ⟨fun r _ => l.ranks_kept backends _ memory r, fun _ r _ => ?_⟩).2 hfull
  · rintro s s' ⟨hkept, hintact⟩ hstep
    refine ⟨Ranks.kept_step hkept hstep, fun hfull => ?_⟩
    obtain ⟨⟨q, t⟩, hnext⟩ := hstep
    obtain ⟨hq, s₁, rfl, hpipeline, hmoved⟩ := Ranks.next_cases hkept hnext
    have hself := hfull q hq
    rw [Function.update_self] at hself
    -- what was completed before the turn was full too
    have hintact := hintact fun r hr e he => by
      by_cases heq : r = q
      · subst heq
        exact hself e (hmoved.results e he)
      · have hother := hfull r hr
        rw [Function.update_of_ne heq] at hother
        exact hother e he
    intro r hr
    by_cases heq : r = q
    · subst heq
      rw [Function.update_self]
      exact Rank.Intact.moved ((hkept r hr).sound hg hr) (hintact r hr) hpipeline hself rfl hmoved
        fun q hq c chunk piece hchunk hpiece => (hintact q hq).sent c chunk piece hchunk hpiece
    · rw [Function.update_of_ne heq]
      exact hintact r hr
  · refine ⟨fun _ => ?_, fun _ _ _ _ hpiece => by cases hpiece⟩
    constructor
    case landed => exact fun _ he => absurd he List.not_mem_nil
    case copied =>
      intro c chunk _ hgt hle
      exact absurd (Int.lt_of_lt_of_le hgt hle) (Int.lt_irrefl _)
    case delivered =>
      intro c chunk _ hle
      exact absurd hle (show ¬ (c : ℤ) ≤ -1 by omega)

/-- A rank that has stored what it was sent holds the bytes of the tensor in use. -/
theorem Rank.Stored.holds {requests : List ℕ} {s : Rank α} (hstored : s.Stored l file)
    (hsound : s.Sound l requests) {i : ℕ} (hgave : .gave i ∈ s.pipeline.loader.log)
    (hcurrent : s.pipeline.loader.currentTensorIndex = i) {t : TensorMetadate}
    (ht : l.layout.tensors[i]? = some t) {b : ℕ} (hb : b < t.size) :
    s.memory.device (t.deviceBufferOffset + b) = file t.fileIndex (t.fileOffset + b) := by
  have hread := hsound.read_le
  rcases l.run_start hsound.pipeline.loader with hstart | hrun
  · rw [hstart] at hgave
    exact absurd hgave List.not_mem_nil
  have ho := l.run_opened (l.opened_opened _) hrun
  have hlast := l.run_gave hrun i hgave t ht
  have hreach : s.pipeline.loader.chunkReading ≤ t.prefetchChunkId := by
    obtain ⟨tensor, -, hget, hlimit, -⟩ := ho.currentTensor
    rw [ho.tensors, hcurrent] at hget
    cases ht.symm.trans hget
    exact hlimit ▸ ho.reading_le
  obtain ⟨c, chunk, y, hchunk, hc, hy, haddr, hfile, hoffset, hafter⟩ :=
    l.byte_home (List.mem_of_getElem? ht) hb
  rw [haddr, hfile, hoffset]
  refine hstored.delivered c chunk hchunk (by omega) y hy fun j chunk' hj hjle hchunk' => ?_
  exact haddr ▸ hafter j chunk' hj (Int.le_trans hjle hreach) hchunk'

/-- **A tensor in use holds the bytes of its file: on every rank, in every interleaving of the
threads, the kernel, the streams and the ranks, from the moment `get_tensor_ptr` returns it until the
next one is asked for.** -/
theorem Load.tensors_hold_bytes (l : Load) (hg : l.CollisionsGuarded) (backends : ℕ → Backend)
    (ns : ℕ → ℕ) (file : ℕ → ℕ → α) (memory : ℕ → RankMemory α) {s : ℕ → Rank α}
    (h : Run (Ranks.next l backends file) (l.ranks backends (fun r => List.range (ns r)) memory) s)
    (hfull : ∀ r < l.args.worldSize, (s r).Full) {r : ℕ} (hr : r < l.args.worldSize) {i : ℕ}
    (hgave : .gave i ∈ (s r).pipeline.loader.log)
    (hcurrent : (s r).pipeline.loader.currentTensorIndex = i)
    (hopen : (s r).pipeline.loader.stop = false) {t : TensorMetadate}
    (ht : l.layout.tensors[i]? = some t) {b : ℕ} (hb : b < t.size) :
    (s r).memory.device (t.deviceBufferOffset + b) = file t.fileIndex (t.fileOffset + b) := by
  have hstored := (Load.run_intact hg h hfull r hr).stored hopen
  have hsound := (Load.run_ranks h r hr).sound hg hr
  exact hstored.holds hsound hgave hcurrent ht hb

end

/-- The two ranks exchange their pieces and hand out the tensor. -/
def twoGathers {α : Type} (junk : α) : List (ℕ × RankTurn α) :=
  [(0, .copy), (0, .send), (1, .send), (0, .receive), (1, .receive)] ++
    (List.range 2).flatMap fun r =>
      ([.waitDone, .loader true, .loader true, .loader true, .loader true] : List Turn).map fun t =>
        (r, .thread t fun _ => junk)

/-- They do, and no chunk is posted over another. -/
theorem twoRanks_deliver : twoRanks.CollisionsGuarded ∧ ∃ s, Run twoNext twoStart s ∧
    (∀ r < 2, (s r).Full) ∧ .gave 0 ∈ (s 0).pipeline.loader.log ∧
    (s 0).pipeline.loader.currentTensorIndex = 0 ∧ (s 0).pipeline.loader.stop = false := by
  constructor
  · -- the layout has a single chunk
    rintro i j hij ⟨c, c', hi, hj, -⟩
    have hlen : twoRanks.layout.chunks.length = 1 := by decide +kernel
    obtain ⟨hlt, -⟩ := List.getElem?_eq_some_iff.mp hj
    omega
  · have hplay : (exec twoNext (twoReads 7 0 ++ twoReads 7 1 ++ twoGathers 7) twoStart).any
        (fun s => (List.range 2).all (fun r => decide (s r).Full) &&
          (decide (.gave 0 ∈ (s 0).pipeline.loader.log) &&
            (decide ((s 0).pipeline.loader.currentTensorIndex = 0) &&
              !(s 0).pipeline.loader.stop))) = true := by
      decide +kernel
    obtain ⟨s, hrun, hs⟩ := Run.exists_of_exec hplay
    obtain ⟨hfull, hs⟩ := Bool.and_eq_true_iff.mp hs
    obtain ⟨hgave, hs⟩ := Bool.and_eq_true_iff.mp hs
    obtain ⟨hcurrent, hopen⟩ := Bool.and_eq_true_iff.mp hs
    refine ⟨s, hrun, ?_, of_decide_eq_true hgave, of_decide_eq_true hcurrent, by simpa using hopen⟩
    intro r hr
    exact of_decide_eq_true (List.all_eq_true.mp hfull r (List.mem_range.mpr hr))

/-- Byte 4100 of the tensor, which rank 1 has read, is in place on rank 0. -/
theorem twoRanks_hold_bytes : ∃ s, Run twoNext twoStart s ∧ (s 0).pipeline.loader.stop = false ∧
    ∃ t, twoRanks.layout.tensors[0]? = some t ∧
      (s 0).memory.device (t.deviceBufferOffset + 4100) = t.fileOffset + 4100 := by
  obtain ⟨hg, s, hrun, hfull, hgave, hcurrent, hopen⟩ := twoRanks_deliver
  have htensor : twoRanks.layout.tensors[0]?.any (fun t => decide (4100 < t.size)) = true := by
    decide +kernel
  obtain ⟨t, ht, hsize⟩ := (Option.any_eq_true _ _).mp htensor
  exact ⟨s, hrun, hopen, t, ht, twoRanks.tensors_hold_bytes hg twoBackends (fun _ => 1) _ _ hrun
    hfull (r := 0) (by decide) hgave hcurrent hopen ht (of_decide_eq_true hsize)⟩

end InstantTensor
