/-
# `InstantTensor.RoundTrip` — what is saved is what is loaded

A safetensors file is the length of a header in eight bytes, the header, and the bytes of its tensors one
behind the other, with their places in the header.  Loading such files gives back the tensors that were
saved, each with its name, dtype, shape and bytes, on every rank of a group and whatever its backends and
threads do (`Load.yields_saved`).

The text of a header may be any that is read as the entries it was written for.  The text that a
writer makes of them is one: `read_safetensors_metadata` takes from the bytes of the file what went into
them, whatever the names and the metadata are made of (`SavedFile.reads_written`).
-/
import InstantTensor.Metadata
import InstantTensor.Yields

namespace InstantTensor

/-! ## Files -/

/-- A tensor to be saved, with the code of its dtype. -/
structure SavedTensor where
  name : String
  dtype : String
  shape : List ℤ
  data : List UInt8
deriving DecidableEq, Repr

/-- The entries of tensors that lie one behind the other from `offset` on. -/
def describe : ℕ → List SavedTensor → List TensorInfo
  | _, [] => []
  | offset, t :: ts =>
      { name := t.name
        dtype := t.dtype
        shape := t.shape
        dataOffsets := (offset, (offset + t.data.length : ℕ)) }
      :: describe (offset + t.data.length) ts

/-- The data of tensors, one behind the other. -/
def savedData (ts : List SavedTensor) : List UInt8 := ts.flatMap SavedTensor.data

/-- What a file is saved from; `text` is its header. -/
structure SavedFile where
  fileMetadata : Option FileMetadata
  tensors : List SavedTensor
  text : List UInt8
deriving DecidableEq, Repr

namespace SavedFile

def headerSize (f : SavedFile) : ℕ := 8 + f.text.length

def bytes (f : SavedFile) : List UInt8 :=
  toBytes 8 f.text.length ++ (f.text ++ savedData f.tensors)

/-- What `read_safetensors_metadata` should make of it. -/
def metadata (f : SavedFile) : SafetensorsMetadata where
  fileMetadata := f.fileMetadata
  tensorMetadata := describe 0 f.tensors
  headerSize := f.headerSize

/-- The file can be saved: its header is that of its tensors, of which there are some, and these have as
many bytes as their dtypes and shapes come to. -/
structure Saved (torch : Torch) (loads : List UInt8 → Option (Option FileMetadata × List TensorInfo))
    (f : SavedFile) : Prop where
  parses : loads f.text = some (f.fileMetadata, describe 0 f.tensors)
  small : f.text.length < 2 ^ 63
  format : (f.fileMetadata.any fun d => (d.lookup "format").getD "pt" != "pt") = false
  nonempty : f.tensors ≠ []
  shapes : ∀ t ∈ f.tensors, ∀ n ∈ t.shape, 0 ≤ n
  sizes : ∀ t ∈ f.tensors, ∃ dtype, torch.dtypeMap.lookup t.dtype = some dtype ∧
    torch.elementSize dtype * t.shape.prod = t.data.length

/-- The header is the text that is made of the tensors, whose names differ. -/
structure Written (f : SavedFile) : Prop where
  text : ∃ blanks, f.text = headerText f.fileMetadata (describe 0 f.tensors) blanks
  names : ("__metadata__" :: f.tensors.map SavedTensor.name).Nodup
  keys : ∀ d ∈ f.fileMetadata, (d.map Prod.fst).Nodup
  small : f.text.length < 2 ^ 63

end SavedFile

/-! ## Entries -/

/-- `e` is the entry of `t` in `data`. -/
structure Saves (data : List UInt8) (e : TensorInfo) (t : SavedTensor) : Prop where
  name : e.name = t.name
  dtype : e.dtype = t.dtype
  shape : e.shape = t.shape
  nonneg : 0 ≤ e.start
  size : e.stop = e.start + t.data.length
  bytes : ∀ b < t.data.length, data[e.start.toNat + b]? = t.data[b]?
  inside : e.stop ≤ data.length

theorem describe_saves (before : List UInt8) (ts : List SavedTensor) :
    List.Forall₂ (Saves (before ++ savedData ts)) (describe before.length ts) ts := by
  induction ts generalizing before with
  | nil => exact .nil
  | cons t ts ih =>
      have hrest : before ++ savedData (t :: ts) = before ++ t.data ++ savedData ts := by
        rw [savedData, List.flatMap_cons, List.append_assoc]
        rfl
      have htail := ih (before ++ t.data)
      rw [← hrest, List.length_append] at htail
      refine .cons ⟨rfl, rfl, rfl, Int.natCast_nonneg _, ?_, ?_, ?_⟩ htail
      · exact Int.natCast_add _ _
      · intro b hb
        rw [hrest, List.append_assoc, show (TensorInfo.start _).toNat = before.length from rfl,
          List.getElem?_append_right (Nat.le_add_right _ _), Nat.add_sub_cancel_left,
          List.getElem?_append_left hb]
      · rw [hrest, List.length_append, List.length_append]
        exact Int.ofNat_le.mpr (Nat.le_add_right _ _)

theorem describe_zero (ts : List SavedTensor) :
    List.Forall₂ (Saves (savedData ts)) (describe 0 ts) ts := describe_saves [] ts

theorem mem_describe {ts : List SavedTensor} {e : TensorInfo} (h : e ∈ describe 0 ts) :
    ∃ t ∈ ts, Saves (savedData ts) e t := by
  have hsaves := describe_zero ts
  obtain ⟨i, hi, rfl⟩ := List.mem_iff_getElem.mp h
  have hlength := hsaves.length_eq
  exact ⟨ts[i], List.getElem_mem _, (List.forall₂_iff_get.mp hsaves).2 i hi (hlength ▸ hi)⟩

theorem describe_chained (offset : ℕ) (ts : List SavedTensor) :
    Chained TensorInfo.start TensorInfo.stop (describe offset ts) := by
  induction ts generalizing offset with
  | nil => exact .nil
  | cons t ts ih =>
      have htail := ih (offset + t.data.length)
      cases ts with
      | nil => exact .singleton _
      | cons u ts => exact List.isChain_cons_cons.mpr ⟨rfl, htail⟩

theorem describe_sorted (offset : ℕ) (ts : List SavedTensor) :
    (∀ e ∈ describe offset ts, (offset : ℤ) ≤ e.start) ∧
      (describe offset ts).Pairwise fun e e' => e.start ≤ e'.start := by
  induction ts generalizing offset with
  | nil => exact ⟨nofun, .nil⟩
  | cons t ts ih =>
      obtain ⟨hle, hpairwise⟩ := ih (offset + t.data.length)
      have hlater : ∀ e ∈ describe (offset + t.data.length) ts, (offset : ℤ) ≤ e.start := by
        intro e he
        exact Int.le_trans (Int.ofNat_le.mpr (Nat.le_add_right _ _)) (hle e he)
      refine ⟨?_, List.pairwise_cons.mpr ⟨hlater, hpairwise⟩⟩
      intro e he
      rcases List.mem_cons.mp he with rfl | he
      · exact Int.le_refl _
      · exact hlater e he

theorem describe_names (offset : ℕ) (ts : List SavedTensor) :
    (describe offset ts).map TensorInfo.name = ts.map SavedTensor.name := by
  induction ts generalizing offset with
  | nil => rfl
  | cons t ts ih =>
      rw [describe, List.map_cons, List.map_cons, ih]

theorem SavedFile.Written.parses {f : SavedFile} (h : f.Written) :
    loads f.text = some (f.fileMetadata, describe 0 f.tensors) := by
  obtain ⟨blanks, htext⟩ := h.text
  rw [htext]
  exact loads_headerText (describe_names 0 f.tensors ▸ h.names) h.keys blanks

/-! ## The files as the frontend sees them -/

section
variable {torch : Torch} {loads : List UInt8 → Option (Option FileMetadata × List TensorInfo)}
  {f : SavedFile}

/-- Behind the header there is the data. -/
theorem SavedFile.bytes_data (f : SavedFile) (b : ℕ) :
    f.bytes[f.headerSize + b]? = (savedData f.tensors)[b]? := by
  have hprefix : (toBytes 8 f.text.length ++ f.text).length = f.headerSize := by
    rw [List.length_append, toBytes_length, headerSize]
  rw [bytes, ← List.append_assoc, ← hprefix, List.getElem?_append_right (Nat.le_add_right _ _),
    Nat.add_sub_cancel_left]

theorem SavedFile.length_bytes (f : SavedFile) :
    f.bytes.length = f.headerSize + (savedData f.tensors).length := by
  rw [bytes, List.length_append, List.length_append, toBytes_length, headerSize, Nat.add_assoc]

/-- The size and the text of the header lie where they are looked for. -/
theorem SavedFile.read_of_parses (hparses : loads f.text = some (f.fileMetadata, describe 0 f.tensors))
    (hsmall : f.text.length < 2 ^ 63) : readSafetensorsMetadata loads f.bytes = some f.metadata := by
  have hword : f.text.length < 256 ^ 8 := Nat.lt_of_lt_of_le hsmall (by decide)
  have hsize : fromBytes (f.bytes.take 8) = f.text.length := by
    rw [bytes, List.take_left' (toBytes_length 8 _), fromBytes_toBytes hword]
  have htext : (f.bytes.drop 8).take f.text.length = f.text := by
    rw [bytes, List.drop_left' (toBytes_length 8 _), List.take_left' rfl]
  have hroom : ¬ 2 ^ 63 ≤ f.text.length := Nat.not_le_of_lt hsmall
  simp only [readSafetensorsMetadata, hsize, htext, if_neg hroom, hparses]
  rfl

theorem SavedFile.Saved.read (h : f.Saved torch loads) :
    readSafetensorsMetadata loads f.bytes = some f.metadata := read_of_parses h.parses h.small

theorem SavedFile.sorted (f : SavedFile) :
    sortByStart TensorInfo.start f.metadata.tensorMetadata = describe 0 f.tensors :=
  sortByStart_of_pairwise (describe_sorted 0 f.tensors).2

theorem SavedFile.Saved.accepted (h : f.Saved torch loads) (fileIndex : ℕ) (headers : Headers) :
    ∃ headers', readHeader fileIndex f.metadata headers = .ok headers' := by
  have hne : f.metadata.tensorMetadata ≠ [] := by
    cases htensors : f.tensors with
    | nil => exact absurd htensors h.nonempty
    | cons t ts =>
        rw [metadata, htensors, describe]
        exact List.cons_ne_nil _ _
  have hchain : Chained TensorInfo.start TensorInfo.stop
      (sortByStart TensorInfo.start f.metadata.tensorMetadata) := by
    rw [f.sorted]
    exact describe_chained 0 f.tensors
  have horder : orderTensors fileIndex f.metadata.headerSize f.metadata.tensorMetadata
      = .ok (sortByStart TensorInfo.start f.metadata.tensorMetadata,
        chainOffsets fileIndex f.metadata.headerSize
          ((sortByStart TensorInfo.start f.metadata.tensorMetadata).map TensorInfo.dataOffsets)) :=
    orderTensors_of_chained hne hchain
  rw [f.sorted] at horder
  have hformat : (f.metadata.fileMetadata.any fun d => (d.lookup "format").getD "pt" != "pt") = false :=
    h.format
  rw [readHeader, if_neg (by rw [hformat]; exact Bool.false_ne_true), horder]
  exact ⟨_, rfl⟩

theorem SavedFile.Saved.trusted (h : f.Saved torch loads) :
    Trusted torch (f.metadata, f.bytes.length) := by
  refine ⟨?_, ?_, ?_⟩
  · intro e he
    rw [f.sorted] at he
    obtain ⟨t, -, hsaved⟩ := mem_describe (List.mem_of_mem_head? he)
    exact hsaved.nonneg
  · intro e he
    rw [f.sorted] at he
    obtain ⟨t, -, hsaved⟩ := mem_describe (List.mem_of_getLast? he)
    have hinside := hsaved.inside
    have hsize := hsaved.size
    have hlength := f.length_bytes
    refine ⟨by omega, ?_⟩
    rw [show f.metadata.headerSize = f.headerSize from rfl]
    simp only [hlength]
    omega
  · intro e he dtype hdtype
    obtain ⟨t, ht, hsaved⟩ := mem_describe he
    obtain ⟨dtype', hlookup, hsizes⟩ := h.sizes t ht
    rw [hsaved.dtype] at hdtype
    obtain rfl := Option.some.inj (hlookup.symm.trans hdtype)
    rw [hsaved.shape, hsizes, hsaved.size]
    omega

theorem readHeaders_saved {files : List SavedFile} (h : ∀ f ∈ files, f.Saved torch loads)
    (fileIndex : ℕ) (headers : Headers) :
    ∃ headers', readHeaders fileIndex (files.map SavedFile.metadata) headers = .ok headers' := by
  induction files generalizing fileIndex headers with
  | nil => exact ⟨headers, rfl⟩
  | cons f files ih =>
      obtain ⟨headers₁, hread⟩ := (h f List.mem_cons_self).accepted fileIndex headers
      obtain ⟨headers₂, hrest⟩ :=
        ih (fun g hg => h g (List.mem_cons_of_mem f hg)) (fileIndex + 1) headers₁
      refine ⟨headers₂, ?_⟩
      rw [List.map_cons, readHeaders, hread]
      exact hrest

/-- An entry in the file of its index. -/
def SavesIn (files : List SavedFile) (fileIndex : ℕ) (e : ℕ × ℕ × TensorInfo) (t : SavedTensor) :
    Prop :=
  ∃ i f, e.1 = fileIndex + i ∧ files[i]? = some f ∧ e.2.1 = f.headerSize ∧ t ∈ f.tensors ∧
    Saves (savedData f.tensors) e.2.2 t

theorem entries_saved (files : List SavedFile) (fileIndex : ℕ) :
    List.Forall₂ (SavesIn files fileIndex) (entries fileIndex (files.map SavedFile.metadata))
      (files.flatMap SavedFile.tensors) := by
  induction files generalizing fileIndex with
  | nil => exact .nil
  | cons f files ih =>
      rw [List.map_cons, entries, f.sorted, List.flatMap_cons]
      refine List.rel_append ?_ ?_
      · rw [List.forall₂_map_left_iff]
        have hsaves := describe_zero f.tensors
        refine List.forall₂_iff_get.mpr ⟨hsaves.length_eq, ?_⟩
        intro i hi hi'
        exact ⟨0, f, rfl, rfl, rfl, List.get_mem _ _, (List.forall₂_iff_get.mp hsaves).2 i hi hi'⟩
      · refine (ih (fileIndex + 1)).imp ?_
        rintro e t ⟨i, g, hindex, hg, hsaved⟩
        exact ⟨i + 1, g, by omega, hg, hsaved⟩

/-- The bytes of the files. -/
def contentOf (files : List SavedFile) (fileIndex offset : ℕ) : UInt8 :=
  ((files[fileIndex]?.map SavedFile.bytes).getD []).getD offset 0

/-- A plain reader takes the tensor that was saved. -/
theorem readTensor_saved {files : List SavedFile} {e : ℕ × ℕ × TensorInfo} {t : SavedTensor}
    (h : SavesIn files 0 e t) {dtype : String} (hdtype : torch.dtypeMap.lookup t.dtype = some dtype) :
    torch.readTensor (contentOf files e.1) e.2.1 e.2.2
      = some { name := t.name, dtype, shape := t.shape, data := t.data } := by
  obtain ⟨i, f, hindex, hf, hheader, -, hsaved⟩ := h
  rw [Nat.zero_add] at hindex
  have hsize : (e.2.2.stop - e.2.2.start).toNat = t.data.length := by
    have hstop := hsaved.size
    omega
  have hdata : (List.range t.data.length).map (fun b =>
      contentOf files e.1 ((e.2.2.start + (e.2.1 : ℤ)).toNat + b)) = t.data := by
    refine List.ext_getElem? fun b => ?_
    by_cases hb : b < t.data.length
    · have hplace : (e.2.2.start + (e.2.1 : ℤ)).toNat + b
          = f.headerSize + (e.2.2.start.toNat + b) := by
        have hnonneg := hsaved.nonneg
        rw [hheader]
        omega
      have hbyte := (f.bytes_data (e.2.2.start.toNat + b)).trans (hsaved.bytes b hb)
      rw [List.getElem?_map, List.getElem?_range hb, Option.map_some, contentOf, hindex, hf,
        Option.map_some, Option.getD_some, hplace, List.getD_eq_getElem?_getD, hbyte,
        List.getElem?_eq_getElem hb, Option.getD_some]
    · rw [List.getElem?_eq_none (by simp; omega), List.getElem?_eq_none (by omega)]
  rw [Torch.readTensor, Torch.tensorOf, hsaved.dtype, hdtype, Option.map_some, hsize, hsaved.name,
    hsaved.shape, hdata]

/-- The entry of the tensor saved at `i`. -/
theorem entry_saved {files : List SavedFile} {i : ℕ} {t : SavedTensor}
    (ht : (files.flatMap SavedFile.tensors)[i]? = some t) :
    ∃ e, (entries 0 (files.map SavedFile.metadata))[i]? = some e ∧ SavesIn files 0 e t := by
  have hsaves := entries_saved files 0
  obtain ⟨hi, rfl⟩ := List.getElem?_eq_some_iff.mp ht
  have hi' : i < (entries 0 (files.map SavedFile.metadata)).length := by
    rw [hsaves.length_eq]
    exact hi
  exact ⟨_, List.getElem?_eq_getElem hi', (List.forall₂_iff_get.mp hsaves).2 i hi' hi⟩

/-! ## What is loaded -/

/-- The metadata of files, with their sizes. -/
def sized (files : List SavedFile) : List (SafetensorsMetadata × ℕ) :=
  files.map fun f => (f.metadata, f.bytes.length)

theorem sized_fst (files : List SavedFile) :
    (sized files).map Prod.fst = files.map SavedFile.metadata := by
  rw [sized, List.map_map]
  rfl

theorem sized_trusted {files : List SavedFile} (h : ∀ f ∈ files, f.Saved torch loads) :
    ∀ file ∈ sized files, Trusted torch file := by
  intro file hfile
  obtain ⟨f, hf, rfl⟩ := List.mem_map.mp hfile
  exact (h f hf).trusted

/-- The frontend takes the files. -/
theorem collectHeaders_saved {files : List SavedFile} (h : ∀ f ∈ files, f.Saved torch loads) :
    ∃ headers, readHeaders 0 ((sized files).map Prod.fst) {} = .ok headers ∧
      collectHeaders 0 (files.map fun f => readSafetensorsMetadata loads f.bytes) {}
        = .ok headers := by
  obtain ⟨headers, haccepted⟩ := readHeaders_saved h 0 {}
  have hread : files.map (fun f => readSafetensorsMetadata loads f.bytes)
      = (files.map SavedFile.metadata).map some := by
    rw [List.map_map]
    exact List.map_congr_left fun f hf => (h f hf).read
  refine ⟨headers, ?_, collectHeaders_ok.mpr ⟨_, hread, haccepted⟩⟩
  rw [sized_fst]
  exact haccepted

/-- What the body of the loop of `tensors` makes of the entry of a saved tensor. -/
theorem Load.yields_saved_entry {files : List SavedFile} (hsaved : ∀ f ∈ files, f.Saved torch loads)
    {h : Headers} (haccepted : readHeaders 0 ((sized files).map Prod.fst) {} = .ok h) {l : Load}
    (hl : l.args.tensorOffsets = toOffsets h.tensorOffsets) (hg : l.CollisionsGuarded)
    {backends : ℕ → Backend} {ns : ℕ → ℕ} {memory : ℕ → RankMemory UInt8} {s : ℕ → Rank UInt8}
    (hrun : Run (Ranks.next l backends (contentOf files))
      (l.ranks backends (fun r => List.range (ns r)) memory) s)
    (hfull : ∀ r < l.args.worldSize, (s r).Full) {r : ℕ} (hr : r < l.args.worldSize) {i : ℕ}
    {t : SavedTensor} {u : TensorMetadate} (hgave : .gave i ∈ (s r).pipeline.loader.log)
    (hcurrent : (s r).pipeline.loader.currentTensorIndex = i)
    (hopen : (s r).pipeline.loader.stop = false)
    (ht : (files.flatMap SavedFile.tensors)[i]? = some t) (hu : l.layout.tensors[i]? = some u)
    (hword : t.data.length < 2 ^ 63) (deviceBuffer : ℕ) (deviceIdx : ℤ) :
    ∃ e dtype, h.orderedTensorMetadatas[i]? = some e ∧ e.dtype = t.dtype ∧
      torch.dtypeMap.lookup t.dtype = some dtype ∧
      torch.yieldTensor (fun a => (s r).memory.device (a - deviceBuffer)) deviceIdx
          (deviceBuffer + u.deviceBufferOffset) e
        = if t.data = [] ∨ (deviceBuffer + u.deviceBufferOffset) % torch.elementSize dtype = 0 then
            .ok { name := t.name, dtype, shape := t.shape, data := t.data }
          else .error (.raised (.notAligned t.name)) := by
  obtain ⟨e, he, hsaves⟩ := entry_saved ht
  obtain ⟨j, f, -, hf, -, htf, hin⟩ := id hsaves
  obtain ⟨dtype, hdtype, -⟩ := (hsaved f (List.mem_of_getElem? hf)).sizes t htf
  -- The frontend has the entry at `i`, and the loader as many bytes for it as were saved.
  have hlisted : h.orderedTensorMetadatas[i]? = some e.2.2 := by
    obtain ⟨ordered, offsets, hcollected, hordered, -⟩ := readHeaders_collected haccepted
    rw [hordered, List.nil_append, ← hcollected.entries_eq, List.getElem?_map, sized_fst, he]
    rfl
  have hsize : u.size = t.data.length := by
    obtain ⟨_, _, u', -, hu', hdescribed, -⟩ :=
      Load.reads_entries haccepted (sized_trusted hsaved) hl hlisted
    obtain rfl := Option.some.inj (hu'.symm.trans hu)
    have hbytes : u'.size = (e.2.2.stop - e.2.2.start).toNat := congrArg (·.2.2) hdescribed
    have hstop := hin.size
    omega
  have hshape : ∀ n ∈ e.2.2.shape, 0 ≤ n := by
    rw [hin.shape]
    exact (hsaved f (List.mem_of_getElem? hf)).shapes t htf
  obtain ⟨f', headerSize, he', hyield⟩ := l.yields_entry torch haccepted (sized_trusted hsaved) hl hg
    backends ns (contentOf files) memory hrun hfull hr hgave hcurrent hopen hlisted hu hshape
    (by omega) deviceBuffer deviceIdx
  rw [sized_fst, he, Option.some.injEq] at he'
  have htensor := readTensor_saved hsaves hdtype
  rw [he'] at htensor
  have haligned : torch.aligned (deviceBuffer + u.deviceBufferOffset) e.2.2 = true ↔
      t.data = [] ∨ (deviceBuffer + u.deviceBufferOffset) % torch.elementSize dtype = 0 := by
    have hempty : e.2.2.start = e.2.2.stop ↔ t.data = [] := by
      have hstop := hin.size
      rw [← List.length_eq_zero_iff]
      omega
    rw [Torch.aligned, hin.dtype, hdtype, Option.all_some, Bool.or_eq_true, decide_eq_true_iff,
      decide_eq_true_iff, hempty]
  refine ⟨e.2.2, dtype, hlisted, hin.dtype, hdtype, ?_⟩
  rw [hyield, show torch.readTensor (contentOf files f') headerSize e.2.2 = _ from htensor,
    Option.elim_some, hin.name]
  exact if_congr haligned rfl rfl

/-- **What is saved is what is loaded**: the frontend accepts the files, and while the loader serves the
tensor at `i`, `tensors` yields the tensor that was saved at `i`, on every rank, whatever the backends
and the interleaving, if its address is aligned. -/
theorem Load.yields_saved {files : List SavedFile} (hsaved : ∀ f ∈ files, f.Saved torch loads) :
    ∃ h, collectHeaders 0 (files.map fun f => readSafetensorsMetadata loads f.bytes) {} = .ok h ∧
    ∀ l : Load, l.args.tensorOffsets = toOffsets h.tensorOffsets → l.CollisionsGuarded →
    ∀ (backends : ℕ → Backend) (ns : ℕ → ℕ) (memory : ℕ → RankMemory UInt8) (s : ℕ → Rank UInt8),
    Run (Ranks.next l backends (contentOf files))
      (l.ranks backends (fun r => List.range (ns r)) memory) s →
    (∀ r < l.args.worldSize, (s r).Full) → ∀ r < l.args.worldSize, ∀ i t u,
    .gave i ∈ (s r).pipeline.loader.log → (s r).pipeline.loader.currentTensorIndex = i →
    (s r).pipeline.loader.stop = false → (files.flatMap SavedFile.tensors)[i]? = some t →
    l.layout.tensors[i]? = some u → t.data.length < 2 ^ 63 →
    ∀ (deviceBuffer : ℕ) (deviceIdx : ℤ), ∃ e dtype, h.orderedTensorMetadatas[i]? = some e ∧
      torch.dtypeMap.lookup t.dtype = some dtype ∧
      torch.yieldTensor (fun a => (s r).memory.device (a - deviceBuffer)) deviceIdx
          (deviceBuffer + u.deviceBufferOffset) e
        = if t.data = [] ∨ (deviceBuffer + u.deviceBufferOffset) % torch.elementSize dtype = 0 then
            .ok { name := t.name, dtype, shape := t.shape, data := t.data }
          else .error (.raised (.notAligned t.name)) := by
  obtain ⟨h, haccepted, hcollect⟩ := collectHeaders_saved hsaved
  refine ⟨h, hcollect, ?_⟩
  intro l hl hg backends ns memory s hrun hfull r hr i t u hgave hcurrent hopen ht hu hword
    deviceBuffer deviceIdx
  obtain ⟨e, dtype, hlisted, -, hdtype, hyield⟩ := Load.yields_saved_entry hsaved haccepted hl hg
    hrun hfull hr hgave hcurrent hopen ht hu hword deviceBuffer deviceIdx
  exact ⟨e, dtype, hlisted, hdtype, hyield⟩

end

/-! ## What is written -/

/-- **What is written is read**: the header of a file says what went into it, whatever characters the
names and the metadata have. -/
theorem SavedFile.reads_written {f : SavedFile} (h : f.Written) :
    readSafetensorsMetadata loads f.bytes = some f.metadata := read_of_parses h.parses h.small

/-- A scalar and two bytes, under names that have to be escaped. -/
def savedPair : SavedFile where
  fileMetadata := some [("format", "pt"), ("a\nb", "\"")]
  tensors := [⟨"größe", "F32", [], [0, 0, 128, 63]⟩, ⟨"\\", "U8", [2], [7, 8]⟩]
  text := headerText (some [("format", "pt"), ("a\nb", "\"")])
    [⟨"größe", "F32", [], (0, 4)⟩, ⟨"\\", "U8", [2], (4, 6)⟩] 4

theorem savedPair_read : readSafetensorsMetadata loads savedPair.bytes
    = some ⟨some [("format", "pt"), ("a\nb", "\"")],
      [⟨"größe", "F32", [], (0, 4)⟩, ⟨"\\", "U8", [2], (4, 6)⟩], 167⟩ := by
  refine (SavedFile.reads_written (f := savedPair) ⟨⟨4, rfl⟩, by decide, ?_, by decide +kernel⟩).trans (by decide +kernel)
  intro d hd
  obtain rfl := Option.some.inj hd
  decide

/-! ## One file -/

/-- A tensor of 4900 bytes, behind a header that is filled up to 100 bytes. -/
def savedOnes : SavedFile where
  fileMetadata := none
  tensors := [⟨"a", "BF16", [2450], List.replicate 4900 1⟩]
  text := headerText none [⟨"a", "BF16", [2450], (0, 4900)⟩] 31

theorem describe_savedOnes : describe 0 savedOnes.tensors = [⟨"a", "BF16", [2450], (0, 4900)⟩] := by
  rw [savedOnes, describe, List.length_replicate]
  rfl

theorem savedOnes_headerSize : savedOnes.headerSize = 100 := by decide

theorem savedOnes_small : savedOnes.text.length < 2 ^ 63 := by
  have hsize := savedOnes_headerSize
  rw [SavedFile.headerSize] at hsize
  omega

theorem savedOnes_parses : loads savedOnes.text = some (none, describe 0 savedOnes.tensors) := by
  refine SavedFile.Written.parses ⟨⟨31, ?_⟩, by decide, ?_, savedOnes_small⟩
  · rw [describe_savedOnes]
    rfl
  · intro d hd
    cases hd

theorem savedOnes_saved : ∀ f ∈ [savedOnes], f.Saved recentTorch loads := by
  intro f hf
  obtain rfl := List.mem_singleton.mp hf
  refine ⟨savedOnes_parses, savedOnes_small, rfl, List.cons_ne_nil _ _, ?_, ?_⟩
  · intro t ht
    obtain rfl := List.mem_singleton.mp ht
    decide
  · intro t ht
    obtain rfl := List.mem_singleton.mp ht
    exact ⟨"bfloat16", rfl, by rw [List.length_replicate]; rfl⟩

/-- What the frontend collects of it: the offsets that `twoRanks` has been opened with. -/
theorem savedOnes_offsets {h : Headers} (hcollect : collectHeaders 0
    ([savedOnes].map fun f => readSafetensorsMetadata loads f.bytes) {} = .ok h) :
    twoRanks.args.tensorOffsets = toOffsets h.tensorOffsets := by
  have hread := (savedOnes_saved savedOnes (List.mem_singleton_self _)).read
  have hsize : savedOnes.metadata.headerSize = 100 := savedOnes_headerSize
  rw [List.map_cons, List.map_nil, hread, collectHeaders, readHeader, orderTensors,
    savedOnes.sorted, describe_savedOnes, hsize] at hcollect
  obtain rfl := Except.ok.inj hcollect
  rfl

/-- Both ranks read their halves, and rank 0 has the tensor in use. -/
theorem savedOnes_delivered : ∃ s : ℕ → Rank UInt8,
    Run (Ranks.next twoRanks twoBackends (contentOf [savedOnes]))
      (twoRanks.ranks twoBackends (fun _ => List.range 1) fun _ => ⟨fun _ => 0, fun _ => 0⟩) s ∧
    (∀ r < twoRanks.args.worldSize, (s r).Full) ∧ .gave 0 ∈ (s 0).pipeline.loader.log ∧
    (s 0).pipeline.loader.currentTensorIndex = 0 ∧ (s 0).pipeline.loader.stop = false := by
  have hplay : (exec (Ranks.next twoRanks twoBackends (contentOf [savedOnes]))
      (twoReads 7 0 ++ twoReads 7 1 ++ twoGathers 7)
      (twoRanks.ranks twoBackends (fun _ => List.range 1) fun _ => ⟨fun _ => 0, fun _ => 0⟩)).any
        (fun s => (List.range 2).all (fun r => decide (s r).Full) &&
          (decide (.gave 0 ∈ (s 0).pipeline.loader.log) &&
            (decide ((s 0).pipeline.loader.currentTensorIndex = 0) &&
              !(s 0).pipeline.loader.stop))) = true := by
    decide +kernel
  obtain ⟨s, hrun, hs⟩ := Run.exists_of_exec hplay
  obtain ⟨hfull, hs⟩ := Bool.and_eq_true_iff.mp hs
  obtain ⟨hgave, hs⟩ := Bool.and_eq_true_iff.mp hs
  obtain ⟨hcurrent, hopen⟩ := Bool.and_eq_true_iff.mp hs
  refine ⟨s, hrun, ?_, of_decide_eq_true hgave, of_decide_eq_true hcurrent, by simpa using hopen⟩
  intro r hr
  exact of_decide_eq_true (List.all_eq_true.mp hfull r (List.mem_range.mpr hr))

/-- Rank 0 yields what was saved, half of which rank 1 has read. -/
theorem savedOnes_yielded : ∃ (s : ℕ → Rank UInt8) (u : TensorMetadate) (e : TensorInfo),
    Run (Ranks.next twoRanks twoBackends (contentOf [savedOnes]))
      (twoRanks.ranks twoBackends (fun _ => List.range 1) fun _ => ⟨fun _ => 0, fun _ => 0⟩) s ∧
    recentTorch.yieldTensor (fun a => (s 0).memory.device (a - 4096)) 0
      (4096 + u.deviceBufferOffset) e
        = .ok ⟨"a", "bfloat16", [2450], List.replicate 4900 1⟩ := by
  obtain ⟨h, hcollect, hyields⟩ := Load.yields_saved savedOnes_saved
  obtain ⟨s, hrun, hfull, hgave, hcurrent, hopen⟩ := savedOnes_delivered
  have htensor : twoRanks.layout.tensors[0]?.any (fun u =>
      decide ((4096 + u.deviceBufferOffset) % 2 = 0)) = true := by
    decide +kernel
  obtain ⟨u, hu, haligned⟩ := (Option.any_eq_true _ _).mp htensor
  obtain ⟨e, dtype, -, hdtype, hyield⟩ := hyields twoRanks (savedOnes_offsets hcollect)
    twoRanks_deliver.1 twoBackends (fun _ => 1) _ s hrun hfull 0 (by decide) 0
    ⟨"a", "BF16", [2450], List.replicate 4900 1⟩ u hgave hcurrent hopen rfl hu
    (by rw [List.length_replicate]; decide) 4096 0
  obtain rfl : "bfloat16" = dtype := Option.some.inj hdtype
  refine ⟨s, u, e, hrun, ?_⟩
  rw [hyield, if_pos (.inr (of_decide_eq_true haligned))]

end InstantTensor
