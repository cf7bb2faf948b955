/-
# `InstantTensor.Yields` — `tensors` yields what is in the files

A plain reader of a safetensors file takes the bytes between the data offsets of an entry, behind the
header, and calls them the tensor.  `tensors` takes another way: what it yields is a view of the ring
buffer on the device, at the address the loader answers, as long as the shape and the dtype say.

The two ways lead to the same tensors.  The view of `get_dl_tensor` walks the bytes from its address on
one after the other (`contiguousStrides_offsets`), the entry of the layout is the entry of the header
with its offsets moved behind the header (`Collected.described`), and its bytes are in place
while the tensor is in use (`Rank.Stored.holds`).
-/
import Mathlib.Algebra.Order.BigOperators.GroupWithZero.List
import InstantTensor.Delivery
import InstantTensor.Generators
import InstantTensor.Manager
import InstantTensor.Opening

namespace InstantTensor

/-! ## Tensors -/

/-- A tensor of torch: its bytes one after the other. -/
structure Tensor (α : Type) where
  name : String
  dtype : String
  shape : List ℤ
  data : List α
deriving DecidableEq, Repr

inductive YieldError where
  | raised (e : PyError)
  /-- `RuntimeError` of `view`: "invalid shape dimension …" -/
  | invalidShape
deriving DecidableEq, Repr

/-- The offsets of a strided tensor's elements, the last index moving first. -/
def stridedOffsets : List ℤ → List ℤ → List ℤ
  | n :: shape, stride :: strides =>
      (List.range n.toNat).flatMap fun (i : ℕ) =>
        (stridedOffsets shape strides).map fun offset => i * stride + offset
  | _, _ => [0]

/-- The elements of a tensor of one-byte elements, as `from_dlpack` takes them. -/
def DLTensor.elements {α : Type} (memory : ℕ → α) (t : DLTensor) : List α :=
  (stridedOffsets t.shape t.strides).map fun offset => memory ((t.data : ℤ) + offset).toNat

/-! ## The two ways to a tensor -/

section
variable {α : Type} (torch : Torch)

/-- The body of the loop of `tensors`, once the loader has answered `dataPtr`; the address of a tensor
without bytes is 0. -/
def Torch.yieldTensor (memory : ℕ → α) (deviceIdx : ℤ) (dataPtr : ℕ) (t : TensorInfo) :
    Except YieldError (Tensor α) :=
  match torch.dtypeMap.lookup t.dtype with
  | none => .error (.raised (.unsupportedDtype t.dtype))
  | some dtype =>
      let tensorSize := getTensorSize (torch.elementSize dtype) t.shape
      if tensorSize < 0 then .error (.raised .negativeSize)
      else
        let tensorInt8 := packDLPack dataPtr [toSigned tensorSize.toNat] deviceIdx
        if t.shape.any fun n => decide (n < 0) then .error .invalidShape
        else
          let address := if tensorSize = 0 then 0 else tensorInt8.data
          if address % torch.elementSize dtype ≠ 0 then .error (.raised (.notAligned t.name))
          else .ok { name := t.name, dtype, shape := t.shape, data := tensorInt8.elements memory }

/-- The check of the address passes. -/
def Torch.aligned (dataPtr : ℕ) (t : TensorInfo) : Bool :=
  (torch.dtypeMap.lookup t.dtype).all fun dtype =>
    decide (t.start = t.stop) || decide (dataPtr % torch.elementSize dtype = 0)

/-- The tensor of an entry, by its bytes. -/
def Torch.tensorOf (t : TensorInfo) (bytes : ℕ → α) : Option (Tensor α) :=
  (torch.dtypeMap.lookup t.dtype).map fun dtype => {
    name := t.name
    dtype
    shape := t.shape
    data := (List.range (t.stop - t.start).toNat).map bytes }

/-- What a plain reader takes for a tensor: the bytes between its offsets, behind the header. -/
def Torch.readTensor (file : ℕ → α) (headerSize : ℕ) (t : TensorInfo) : Option (Tensor α) :=
  torch.tensorOf t fun b => file ((t.start + (headerSize : ℤ)).toNat + b)

end

/-- The entries of the files from `fileIndex` on, each with its file and the size of the header there. -/
def entries : ℕ → List SafetensorsMetadata → List (ℕ × ℕ × TensorInfo)
  | _, [] => []
  | fileIndex, m :: ms =>
      (sortByStart TensorInfo.start m.tensorMetadata).map (fun t => (fileIndex, m.headerSize, t))
        ++ entries (fileIndex + 1) ms

/-- The tensors of all files, file after file and by their offsets. -/
def Torch.readFiles {α : Type} (torch : Torch) (content : ℕ → ℕ → α) (ms : List SafetensorsMetadata) :
    List (Option (Tensor α)) :=
  (entries 0 ms).map fun e => torch.readTensor (content e.1) e.2.1 e.2.2

/-! ## Views -/

theorem contiguousStrides_offsets {shape : List ℤ} (h : ∀ n ∈ shape, 0 ≤ n) :
    stridedOffsets shape (contiguousStrides shape)
      = (List.range shape.prod.toNat).map fun (i : ℕ) => (i : ℤ) := by
  induction shape with
  | nil => rfl
  | cons n shape ih =>
      have hn : 0 ≤ n := h n (by simp)
      have hrest : ∀ n ∈ shape, 0 ≤ n := fun n hn => h n (List.mem_cons_of_mem _ hn)
      have hprod : 0 ≤ shape.prod := List.prod_nonneg hrest
      rw [contiguousStrides, stridedOffsets, ih hrest, List.prod_cons, Int.toNat_mul hn hprod,
        range_mul_eq_flatMap, List.map_flatMap]
      refine List.flatMap_congr fun i _ => ?_
      rw [List.map_map, List.map_map]
      refine List.map_congr_left fun j _ => ?_
      simp [Int.toNat_of_nonneg hprod]

/-- The view walks its bytes one after the other. -/
theorem packDLPack_elements {α : Type} (memory : ℕ → α) (ptr : ℕ) {size : ℕ} (hsize : size < 2 ^ 63)
    (deviceIdx : ℤ) : (packDLPack ptr [toSigned size] deviceIdx).elements memory
      = (List.range size).map fun b => memory (ptr + b) := by
  have hsigned : toSigned size = size := by
    rw [toSigned, if_pos hsize]
  rw [DLTensor.elements, packDLPack, hsigned, contiguousStrides_offsets (by simp), List.map_map]
  simp only [List.prod_cons, List.prod_nil, mul_one, Int.toNat_natCast]
  refine List.map_congr_left fun b _ => ?_
  simp only [Function.comp_apply]
  congr 1

section
variable {α : Type} (torch : Torch) {t : TensorInfo}

theorem Torch.tensorOf_congr {bytes bytes' : ℕ → α}
    (h : ∀ b < (t.stop - t.start).toNat, bytes b = bytes' b) :
    torch.tensorOf t bytes = torch.tensorOf t bytes' := by
  have hdata : (List.range (t.stop - t.start).toNat).map bytes
      = (List.range (t.stop - t.start).toNat).map bytes' :=
    List.map_congr_left fun b hb => h b (List.mem_range.mp hb)
  rw [tensorOf, tensorOf, hdata]

/-- A tensor whose shape comes to the bytes between its offsets is yielded from its address on. -/
theorem Torch.yieldTensor_eq (memory : ℕ → α) (deviceIdx : ℤ) (dataPtr : ℕ)
    (hle : t.start ≤ t.stop) (hword : t.stop - t.start < 2 ^ 63) (hshape : ∀ n ∈ t.shape, 0 ≤ n)
    (hsize : ∀ dtype ∈ torch.dtypeMap.lookup t.dtype,
      torch.elementSize dtype * t.shape.prod = t.stop - t.start) :
    torch.yieldTensor memory deviceIdx dataPtr t
      = (torch.tensorOf t fun b => memory (dataPtr + b)).elim
          (.error (.raised (.unsupportedDtype t.dtype))) fun tensor =>
            if torch.aligned dataPtr t then .ok tensor else .error (.raised (.notAligned t.name)) := by
  rw [yieldTensor, tensorOf, aligned]
  cases hdtype : torch.dtypeMap.lookup t.dtype with
  | none => rfl
  | some dtype =>
      have hview : getTensorSize (torch.elementSize dtype) t.shape = t.stop - t.start := by
        rw [getTensorSize_eq]
        exact hsize dtype hdtype
      have hdims : (t.shape.any fun n => decide (n < 0)) = false := by
        simpa using hshape
      have hdata : (packDLPack dataPtr [toSigned (t.stop - t.start).toNat] deviceIdx).elements memory
          = (List.range (t.stop - t.start).toNat).map fun b => memory (dataPtr + b) :=
        packDLPack_elements memory dataPtr (by omega) deviceIdx
      simp only [hview, hdims, hdata]
      rw [if_neg (by omega)]
      by_cases hempty : t.stop - t.start = 0
      · have heq : t.start = t.stop := by omega
        simp [heq]
      · have hne : ¬ t.start = t.stop := by omega
        by_cases haligned : dataPtr % torch.elementSize dtype = 0
        · simp [hempty, hne, haligned, packDLPack]
        · simp [hempty, hne, haligned, packDLPack]

end

/-! ## The entries of the headers -/

section
variable {i : ℕ} {ms : List SafetensorsMetadata} {ordered : List TensorInfo}
  {offsets : List (ℕ × ℤ)}

theorem Collected.entries_eq (h : Collected i ms ordered offsets) :
    (entries i ms).map (fun e => e.2.2) = ordered := by
  induction h with
  | nil => rfl
  | @cons i m ms ordered ordered' offsets offsets' horder hrest ih =>
      obtain ⟨rfl, -⟩ := orderTensors_ok horder
      rw [entries, List.map_append, ih, List.map_map]
      exact congrArg (· ++ ordered') (List.map_id' _)

/-- In front of another file's offsets, those of a chain describe its tensors. -/
theorem describedTensors_fileOffsets (headerSize : ℕ) {more : List (ℕ × ℕ)}
    (hchain : Chained TensorInfo.start TensorInfo.stop ordered) (hnonneg : ∀ t ∈ ordered, 0 ≤ t.start)
    (hmore : ∀ o ∈ more.head?, o.1 ≠ i) :
    describedTensors (toOffsets (fileOffsets i headerSize ordered) ++ more)
      = ordered.map (fun t => (i, (t.start + (headerSize : ℤ)).toNat, (t.stop - t.start).toNat))
        ++ describedTensors more := by
  induction ordered with
  | nil => rfl
  | cons t ordered ih =>
      have ht := hnonneg t (by simp)
      cases ordered with
      | nil =>
          have hsize : (t.stop + (headerSize : ℤ)).toNat - (t.start + (headerSize : ℤ)).toNat
              = (t.stop - t.start).toNat := by omega
          cases more with
          | nil => simp [fileOffsets, toOffsets, describedTensors, hsize]
          | cons o more =>
              have hne : i ≠ o.1 := (hmore o (by simp)).symm
              simp [fileOffsets, toOffsets, describedTensors, hne, hsize]
      | cons u ordered =>
          have hnext : t.stop = u.start := (List.isChain_cons_cons.mp hchain).1
          have hsize : (u.start + (headerSize : ℤ)).toNat - (t.start + (headerSize : ℤ)).toNat
              = (u.start - t.start).toNat := by omega
          have ih := ih (List.IsChain.tail hchain) fun v hv => hnonneg v (List.mem_cons_of_mem t hv)
          simp only [fileOffsets, toOffsets, List.map_cons, List.getLast?_cons_cons,
            List.cons_append] at ih ⊢
          rw [describedTensors, if_pos rfl, ih, hsize, hnext]

theorem Collected.described (h : Collected i ms ordered offsets)
    (hnonneg : ∀ m ∈ ms, ∀ t ∈ m.tensorMetadata, 0 ≤ t.start) :
    describedTensors (toOffsets offsets) = (entries i ms).map fun e =>
      (e.1, (e.2.2.start + (e.2.1 : ℤ)).toNat, (e.2.2.stop - e.2.2.start).toNat) := by
  induction h with
  | nil => rfl
  | @cons i m ms ordered ordered' offsets offsets' horder hrest ih =>
      obtain ⟨rfl, -, rfl, hchain⟩ := orderTensors_ok horder
      have hself : ∀ t ∈ sortByStart TensorInfo.start m.tensorMetadata, 0 ≤ t.start := fun t ht =>
        hnonneg m (by simp) t ((sortByStart_perm _ _).mem_iff.mp ht)
      have hindex : ∀ o ∈ (toOffsets offsets').head?, o.1 ≠ i := by
        intro o ho
        obtain ⟨o', ho', rfl⟩ := List.mem_map.mp (List.mem_of_mem_head? ho)
        have hle := hrest.index_le o' ho'
        simp only
        omega
      have hsplit : ∀ l : List (ℕ × ℤ), toOffsets (l ++ offsets') = toOffsets l ++ toOffsets offsets' :=
        fun l => List.map_append
      rw [hsplit, describedTensors_fileOffsets m.headerSize hchain hself hindex,
        ih fun m' hm' => hnonneg m' (by simp [hm']), entries, List.map_append, List.map_map]
      rfl

end

/-! ## The tensors of a load -/

/-- What the plain reader takes and what the loader is told of it, tensor by tensor. -/
theorem Load.reads_entries {torch : Torch} {files : List (SafetensorsMetadata × ℕ)} {h : Headers}
    (haccepted : readHeaders 0 (files.map Prod.fst) {} = .ok h)
    (htrusted : ∀ file ∈ files, Trusted torch file) {l : Load}
    (hl : l.args.tensorOffsets = toOffsets h.tensorOffsets) {i : ℕ} {t : TensorInfo}
    (ht : h.orderedTensorMetadatas[i]? = some t) :
    ∃ (f headerSize : ℕ) (u : TensorMetadate),
      (entries 0 (files.map Prod.fst))[i]? = some (f, headerSize, t) ∧
      l.layout.tensors[i]? = some u ∧
      u.described = (f, (t.start + (headerSize : ℤ)).toNat, (t.stop - t.start).toNat) ∧
      t.start ≤ t.stop ∧ (∀ dtype ∈ torch.dtypeMap.lookup t.dtype,
        torch.elementSize dtype * t.shape.prod = t.stop - t.start) := by
  obtain ⟨ordered, offsets, hcollected, htensors, hoffsets⟩ := readHeaders_collected haccepted
  simp only [List.nil_append] at htensors hoffsets
  have hextents : ∀ m ∈ files.map Prod.fst, ∀ t ∈ m.tensorMetadata,
      0 ≤ t.start ∧ t.start ≤ t.stop ∧ (∀ dtype ∈ torch.dtypeMap.lookup t.dtype,
        torch.elementSize dtype * t.shape.prod = t.stop - t.start) := by
    intro m hm t ht
    obtain ⟨hne, hchain⟩ := hcollected.chained m hm
    obtain ⟨file, hfile, rfl⟩ := List.mem_map.mp hm
    obtain ⟨hstart, hstop, -⟩ := (htrusted file hfile).extents hne hchain t ht
    exact ⟨hstart, hstop, (htrusted file hfile).sizes t ht⟩
  rw [htensors] at ht
  obtain ⟨m, hm, htm⟩ := hcollected.mem_iff.mp (List.mem_of_getElem? ht)
  have hlisted := ht
  rw [← hcollected.entries_eq, List.getElem?_map] at hlisted
  obtain ⟨⟨f, headerSize, t'⟩, hentry, heq⟩ := Option.map_eq_some_iff.mp hlisted
  obtain rfl : t' = t := heq
  have hdescribed : l.layout.tensors.map TensorMetadate.described
      = (entries 0 (files.map Prod.fst)).map fun e =>
        (e.1, (e.2.2.start + (e.2.1 : ℤ)).toNat, (e.2.2.stop - e.2.2.start).toNat) := by
    rw [l.tensors_described, hl, hoffsets]
    exact hcollected.described fun m hm t ht => (hextents m hm t ht).1
  have hget := congrArg (·[i]?) hdescribed
  simp only [List.getElem?_map, hentry, Option.map_some] at hget
  obtain ⟨u, hu, hplace⟩ := Option.map_eq_some_iff.mp hget
  exact ⟨f, headerSize, u, hentry, hu, hplace, (hextents m hm t' htm).2⟩

/-- The body of the loop of `tensors` comes to the bytes of its entry in the file. -/
theorem Load.yields_entry {α : Type} (l : Load) (torch : Torch)
    {files : List (SafetensorsMetadata × ℕ)} {h : Headers}
    (haccepted : readHeaders 0 (files.map Prod.fst) {} = .ok h)
    (htrusted : ∀ file ∈ files, Trusted torch file)
    (hl : l.args.tensorOffsets = toOffsets h.tensorOffsets) (hg : l.CollisionsGuarded)
    (backends : ℕ → Backend) (ns : ℕ → ℕ) (content : ℕ → ℕ → α) (memory : ℕ → RankMemory α)
    {s : ℕ → Rank α}
    (hrun : Run (Ranks.next l backends content)
      (l.ranks backends (fun r => List.range (ns r)) memory) s)
    (hfull : ∀ r < l.args.worldSize, (s r).Full) {r : ℕ} (hr : r < l.args.worldSize) {i : ℕ}
    (hgave : .gave i ∈ (s r).pipeline.loader.log)
    (hcurrent : (s r).pipeline.loader.currentTensorIndex = i)
    (hopen : (s r).pipeline.loader.stop = false) {t : TensorInfo} {u : TensorMetadate}
    (ht : h.orderedTensorMetadatas[i]? = some t) (hu : l.layout.tensors[i]? = some u)
    (hshape : ∀ n ∈ t.shape, 0 ≤ n) (hword : u.size < 2 ^ 63) (deviceBuffer : ℕ) (deviceIdx : ℤ) :
    ∃ f headerSize, (entries 0 (files.map Prod.fst))[i]? = some (f, headerSize, t) ∧
      torch.yieldTensor (fun a => (s r).memory.device (a - deviceBuffer)) deviceIdx
          (deviceBuffer + u.deviceBufferOffset) t
        = (torch.readTensor (content f) headerSize t).elim
            (.error (.raised (.unsupportedDtype t.dtype))) fun tensor =>
              if torch.aligned (deviceBuffer + u.deviceBufferOffset) t then .ok tensor
              else .error (.raised (.notAligned t.name)) := by
  have hstored := (Load.run_intact hg hrun hfull r hr).stored hopen
  have hsound := (Load.run_ranks hrun r hr).sound hg hr
  obtain ⟨f, headerSize, u', hentry, hu', hdescribed, hle, hsize⟩ :=
    Load.reads_entries haccepted htrusted hl ht
  obtain rfl := Option.some.inj (hu'.symm.trans hu)
  simp only [TensorMetadate.described, Prod.mk.injEq] at hdescribed
  obtain ⟨hfile, hoffset, hbytes⟩ := hdescribed
  refine ⟨f, headerSize, hentry, ?_⟩
  rw [torch.yieldTensor_eq _ _ _ hle (by omega) hshape hsize]
  refine congrArg (Option.elim · _ _) (torch.tensorOf_congr fun b hb => ?_)
  have hheld := hstored.holds hsound hgave hcurrent hu' (b := b) (by omega)
  rw [hfile, hoffset] at hheld
  rw [← hheld, Nat.add_assoc, Nat.add_sub_cancel_left]

/-- **What `tensors` yields is what a plain reader of the files takes**, on every rank, whatever the
backends and the interleaving, unless its address is not aligned. -/
theorem Load.yields_plain {α : Type} (l : Load) (torch : Torch)
    {files : List (SafetensorsMetadata × ℕ)} {h : Headers}
    (haccepted : readHeaders 0 (files.map Prod.fst) {} = .ok h)
    (htrusted : ∀ file ∈ files, Trusted torch file)
    (hl : l.args.tensorOffsets = toOffsets h.tensorOffsets) (hg : l.CollisionsGuarded)
    (backends : ℕ → Backend) (ns : ℕ → ℕ) (content : ℕ → ℕ → α) (memory : ℕ → RankMemory α)
    {s : ℕ → Rank α}
    (hrun : Run (Ranks.next l backends content)
      (l.ranks backends (fun r => List.range (ns r)) memory) s)
    (hfull : ∀ r < l.args.worldSize, (s r).Full) {r : ℕ} (hr : r < l.args.worldSize) {i : ℕ}
    (hgave : .gave i ∈ (s r).pipeline.loader.log)
    (hcurrent : (s r).pipeline.loader.currentTensorIndex = i)
    (hopen : (s r).pipeline.loader.stop = false) {t : TensorInfo} {u : TensorMetadate}
    (ht : h.orderedTensorMetadatas[i]? = some t) (hu : l.layout.tensors[i]? = some u)
    (hshape : ∀ n ∈ t.shape, 0 ≤ n) (hword : u.size < 2 ^ 63) (deviceBuffer : ℕ) (deviceIdx : ℤ) :
    ∃ plain, (torch.readFiles content (files.map Prod.fst))[i]? = some plain ∧
      torch.yieldTensor (fun a => (s r).memory.device (a - deviceBuffer)) deviceIdx
          (deviceBuffer + u.deviceBufferOffset) t
        = plain.elim (.error (.raised (.unsupportedDtype t.dtype))) fun tensor =>
            if torch.aligned (deviceBuffer + u.deviceBufferOffset) t then .ok tensor
            else .error (.raised (.notAligned t.name)) := by
  obtain ⟨f, headerSize, hentry, hyield⟩ := l.yields_entry torch haccepted htrusted hl hg backends ns
    content memory hrun hfull hr hgave hcurrent hopen ht hu hshape hword deviceBuffer deviceIdx
  refine ⟨torch.readTensor (content f) headerSize t, ?_, hyield⟩
  rw [Torch.readFiles, List.getElem?_map, hentry]
  rfl

/-- Rank 0 yields the tensor, half of which rank 1 has read. -/
theorem twoRanks_yield_plain : ∃ (s : ℕ → Rank ℕ) (u : TensorMetadate) (tensor : Tensor ℕ),
    Run twoNext twoStart s ∧
    (recentTorch.readFiles (fun _ o => o) [oneTensorFile.1])[0]? = some (some tensor) ∧
    recentTorch.yieldTensor (fun a => (s 0).memory.device (a - 4096)) 0
      (4096 + u.deviceBufferOffset) ⟨"a", "BF16", [2450], (0, 4900)⟩ = .ok tensor := by
  obtain ⟨hg, s, hrun, hfull, hgave, hcurrent, hopen⟩ := twoRanks_deliver
  have htensor : twoRanks.layout.tensors[0]?.any (fun u => decide (u.size < 2 ^ 63) &&
      recentTorch.aligned (4096 + u.deviceBufferOffset) ⟨"a", "BF16", [2450], (0, 4900)⟩) = true := by
    decide +kernel
  obtain ⟨u, hu, huse⟩ := (Option.any_eq_true _ _).mp htensor
  obtain ⟨hsize, haligned⟩ := Bool.and_eq_true_iff.mp huse
  obtain ⟨plain, hplain, hyield⟩ := twoRanks.yields_plain recentTorch oneTensorFile_accepted
    oneTensorFile_trusted rfl hg twoBackends (fun _ => 1) _ _ hrun hfull (r := 0) (by decide) hgave
    hcurrent hopen rfl hu (by decide) (of_decide_eq_true hsize) 4096 0
  have hread : recentTorch.readFiles (fun _ o => o) [oneTensorFile.1]
      = [recentTorch.readTensor (fun o => o) 100 ⟨"a", "BF16", [2450], (0, 4900)⟩] := by
    rw [Torch.readFiles, entries, oneTensorFile, sortByStart_of_pairwise (by decide)]
    rfl
  change (recentTorch.readFiles (fun _ o => o) [oneTensorFile.1])[0]? = some plain at hplain
  have hsome : plain.isSome = true := by
    rw [hread] at hplain
    obtain rfl := Option.some.inj hplain
    rfl
  obtain ⟨tensor, rfl⟩ := Option.isSome_iff_exists.mp hsome
  refine ⟨s, u, tensor, hrun, hplain, ?_⟩
  rw [hyield, Option.elim, if_pos haligned]

end InstantTensor
