/-
# `InstantTensor.Extents` — do accepted headers describe readable tensors

A tensor of a header has three sizes: the bytes between its data offsets, the elements of its
shape times the size of its dtype, and what the file holds of it.  The layout reserves the
first, `tensors` asks for a view of the second, and nothing compares the three
(`packedTensor_overruns`).

What the constructor does check is that each tensor ends where the next one starts.  Together
with the order of the starts this leaves the first start, the last extent and the end of the
file to be trusted, and the size of each view (`readable_iff`).
-/
import InstantTensor.Header
import InstantTensor.Lib.Fallible
import InstantTensor.Placement

namespace InstantTensor

/-! ## Sizes of views -/

/-- What the model uses of torch: the dtypes it has, and the size of their elements. -/
structure Torch where
  hasattr : String → Bool
  elementSize : String → ℕ

def baseDtypes : List (String × String) :=
  [("F64", "float64"), ("F32", "float32"), ("F16", "float16"), ("BF16", "bfloat16"),
    ("I64", "int64"), ("I32", "int32"), ("I16", "int16"), ("I8", "int8"), ("U8", "uint8"),
    ("BOOL", "bool"), ("C64", "complex64")]

def unsignedDtypes : List (String × String) :=
  [("U64", "uint64"), ("U32", "uint32"), ("U16", "uint16")]

def experimentalAliases : List (String × List String) :=
  [("F8_E4M3", ["float8_e4m3fn", "float8_e4m3fnuz"]),
    ("F8_E5M2", ["float8_e5m2", "float8_e5m2fnuz"]),
    ("F8_E8M0", ["float8_e8m0fnu", "float8_e8m0fnuz"]),
    ("F4", ["float4_e2m1fn_x2"])]

/-- `get_safetensors_dtype_map`. -/
def Torch.dtypeMap (torch : Torch) : List (String × String) :=
  baseDtypes ++ unsignedDtypes.filter (fun d => torch.hasattr d.2)
    ++ experimentalAliases.filterMap fun d => (d.2.find? torch.hasattr).map (d.1, ·)

/-- `get_tensor_size`. -/
def getTensorSize (elementSize : ℕ) (shape : List ℤ) : ℤ := shape.foldl (· * ·) (elementSize : ℤ)

/-- The size `tensors` asks for, unless the dtype is not known. -/
def Torch.viewSize (torch : Torch) (t : TensorInfo) : Option ℤ :=
  (torch.dtypeMap.lookup t.dtype).map fun dtype => getTensorSize (torch.elementSize dtype) t.shape

/-! ## What the constructor collects -/

/-- The tensors and offsets of the files from `fileIndex` on. -/
inductive Collected : ℕ → List SafetensorsMetadata → List TensorInfo → List (ℕ × ℤ) → Prop
  | nil {fileIndex : ℕ} : Collected fileIndex [] [] []
  | cons {fileIndex : ℕ} {m : SafetensorsMetadata} {ms : List SafetensorsMetadata}
      {ordered ordered' : List TensorInfo} {offsets offsets' : List (ℕ × ℤ)} :
      orderTensors fileIndex m.headerSize m.tensorMetadata = .ok (ordered, offsets) →
      Collected (fileIndex + 1) ms ordered' offsets' →
      Collected fileIndex (m :: ms) (ordered ++ ordered') (offsets ++ offsets')

theorem readHeaders_collected {fileIndex : ℕ} {ms : List SafetensorsMetadata} {h h' : Headers}
    (hread : readHeaders fileIndex ms h = .ok h') :
    ∃ ordered offsets, Collected fileIndex ms ordered offsets ∧
      h'.orderedTensorMetadatas = h.orderedTensorMetadatas ++ ordered ∧
      h'.tensorOffsets = h.tensorOffsets ++ offsets := by
  induction ms generalizing fileIndex h with
  | nil =>
      cases hread
      exact ⟨[], [], .nil, by simp, by simp⟩
  | cons m ms ih =>
      obtain ⟨h₁, hfile, hrest⟩ := bind_ok hread
      obtain ⟨ordered', offsets', hcollected, htensors, hoffsets⟩ := ih hrest
      rw [readHeader] at hfile
      split at hfile
      · cases hfile
      · obtain ⟨r, horder, hpure⟩ := bind_ok hfile
        obtain rfl := Except.ok.inj hpure
        exact ⟨_, _, .cons horder hcollected, by simp [htensors], by simp [hoffsets]⟩

/-! ## Sizes by the offsets -/

/-- The differences of neighbouring offsets of one file. -/
def offsetSizes : List (ℕ × ℤ) → List ℤ
  | (f, o) :: (f', o') :: rest =>
      if f = f' then (o' - o) :: offsetSizes ((f', o') :: rest) else offsetSizes ((f', o') :: rest)
  | _ => []

theorem tensorSizes_eq (offsets : List (ℕ × ℕ)) :
    tensorSizes offsets
      = (offsetSizes (offsets.map fun o => (o.1, (o.2 : ℤ)))).map Int.toNat := by
  fun_induction tensorSizes offsets with
  | case1 f o o' rest ih =>
      rw [ih]
      simp [offsetSizes]
  | case2 f o f' o' rest hne ih =>
      rw [ih]
      simp [offsetSizes, hne]
  | case3 offsets hnot =>
      cases offsets with
      | nil => rfl
      | cons o rest =>
          cases rest with
          | nil => rfl
          | cons o' rest => exact absurd rfl (hnot o.1 o.2 o'.1 o'.2 rest)

/-- The offsets of one file. -/
def fileOffsets (fileIndex headerSize : ℕ) (ordered : List TensorInfo) : List (ℕ × ℤ) :=
  ordered.map (fun t => (fileIndex, t.start + (headerSize : ℤ)))
    ++ (ordered.getLast?.map fun t => (fileIndex, t.stop + (headerSize : ℤ))).toList

theorem orderTensors_ok {fileIndex headerSize : ℕ} {tensors ordered : List TensorInfo}
    {offsets : List (ℕ × ℤ)}
    (h : orderTensors fileIndex headerSize tensors = .ok (ordered, offsets)) :
    ordered = sortByStart TensorInfo.start tensors ∧ ordered ≠ [] ∧
      offsets = fileOffsets fileIndex headerSize ordered ∧
      Chained TensorInfo.start TensorInfo.stop ordered := by
  have hchain := chained_of_orderTensors h
  rw [orderTensors, if_pos (contiguous_iff.mpr hchain)] at h
  cases hlast : (sortByStart TensorInfo.start tensors).getLast? with
  | none =>
      rw [hlast] at h
      cases h
  | some last =>
      rw [hlast] at h
      cases h
      refine ⟨rfl, ?_, ?_, hchain⟩
      · intro hnil
        simp [hnil] at hlast
      · rw [fileOffsets, hlast]
        rfl

/-- In front of another file's offsets, those of a chain give its tensors their sizes. -/
theorem offsetSizes_fileOffsets {fileIndex headerSize : ℕ} {ordered : List TensorInfo}
    {more : List (ℕ × ℤ)} (hchain : Chained TensorInfo.start TensorInfo.stop ordered)
    (hmore : ∀ o ∈ more.head?, o.1 ≠ fileIndex) :
    offsetSizes (fileOffsets fileIndex headerSize ordered ++ more)
      = ordered.map (fun t => t.stop - t.start) ++ offsetSizes more := by
  induction ordered with
  | nil => simp [fileOffsets]
  | cons t ordered ih =>
      cases ordered with
      | nil =>
          cases more with
          | nil => simp [fileOffsets, offsetSizes]
          | cons o more =>
              have hne : fileIndex ≠ o.1 := (hmore o (by simp)).symm
              simp [fileOffsets, offsetSizes, hne]
      | cons u ordered =>
          have hnext : t.stop = u.start := (List.isChain_cons_cons.mp hchain).1
          have ih := ih (List.IsChain.tail hchain)
          simp only [fileOffsets, List.map_cons, List.getLast?_cons_cons, List.cons_append] at ih ⊢
          rw [offsetSizes, if_pos rfl, ih, hnext]
          simp

theorem Collected.index_le {i : ℕ} {ms : List SafetensorsMetadata} {ordered : List TensorInfo}
    {offsets : List (ℕ × ℤ)} (h : Collected i ms ordered offsets) : ∀ o ∈ offsets, i ≤ o.1 := by
  induction h with
  | nil => simp
  | @cons i m ms ordered ordered' offsets offsets' horder hrest ih =>
      intro o ho
      rcases List.mem_append.mp ho with ho | ho
      · obtain ⟨-, -, rfl, -⟩ := orderTensors_ok horder
        simp only [fileOffsets, List.mem_append, List.mem_map, Option.mem_toList,
          Option.map_eq_some_iff] at ho
        rcases ho with ⟨t, -, rfl⟩ | ⟨t, -, rfl⟩ <;> exact Nat.le_refl _
      · exact Nat.le_of_succ_le (ih o ho)

theorem Collected.sizes {i : ℕ} {ms : List SafetensorsMetadata} {ordered : List TensorInfo}
    {offsets : List (ℕ × ℤ)} (h : Collected i ms ordered offsets) :
    offsetSizes offsets = ordered.map fun t => t.stop - t.start := by
  induction h with
  | nil => rfl
  | @cons i m ms ordered ordered' offsets offsets' horder hrest ih =>
      obtain ⟨-, -, rfl, hchain⟩ := orderTensors_ok horder
      rw [offsetSizes_fileOffsets hchain, ih, List.map_append]
      intro o ho
      have hle := hrest.index_le o (List.mem_of_mem_head? ho)
      omega

/-! ## Readable tensors -/

/-- **The headers describe readable tensors**; a file is its header and its length. -/
structure Readable (torch : Torch) (files : List (SafetensorsMetadata × ℕ)) (h : Headers) : Prop where
  extents : ∀ file ∈ files, ∀ t ∈ file.1.tensorMetadata,
    0 ≤ t.start ∧ t.start ≤ t.stop ∧ file.1.headerSize + t.stop ≤ (file.2 : ℤ)
  sizes : ∀ t ∈ h.orderedTensorMetadatas, ∀ size, torch.viewSize t = some size →
    size = t.stop - t.start
  sorted : h.tensorOffsets.Pairwise fun o o' => o.1 = o'.1 → o.2 ≤ o'.2
  /-- The offsets are those of a load, and for any such load each view lies in what the layout
  reserves for its tensor. -/
  valid : files ≠ [] → ∃ offsets : List (ℕ × ℕ), ValidOffsets offsets ∧
    offsets.map (fun o => (o.1, (o.2 : ℤ))) = h.tensorOffsets
  views : ∀ l : Load, l.args.tensorOffsets.map (fun o => (o.1, (o.2 : ℤ))) = h.tensorOffsets →
    ∀ (i : ℕ) (t : TensorInfo) (size : ℤ), h.orderedTensorMetadatas[i]? = some t → torch.viewSize t = some size →
      ∃ u : TensorMetadate, l.layout.tensors[i]? = some u ∧
        (u.deviceBufferOffset : ℤ) + size ≤ u.deviceBufferOffset + u.size

/-- What the constructor leaves to be trusted of a file: its first start, its last extent, and
the sizes its shapes come to. -/
structure Trusted (torch : Torch) (file : SafetensorsMetadata × ℕ) : Prop where
  first : ∀ t ∈ (sortByStart TensorInfo.start file.1.tensorMetadata).head?, 0 ≤ t.start
  last : ∀ t ∈ (sortByStart TensorInfo.start file.1.tensorMetadata).getLast?,
    t.start ≤ t.stop ∧ file.1.headerSize + t.stop ≤ (file.2 : ℤ)
  sizes : ∀ t ∈ file.1.tensorMetadata, ∀ dtype ∈ torch.dtypeMap.lookup t.dtype,
    torch.elementSize dtype * t.shape.prod = t.stop - t.start

theorem getTensorSize_eq (elementSize : ℕ) (shape : List ℤ) :
    getTensorSize elementSize shape = elementSize * shape.prod := by
  have hfold : ∀ (shape : List ℤ) (x : ℤ), shape.foldl (· * ·) x = x * shape.prod := by
    intro shape
    induction shape with
    | nil => simp
    | cons s shape ih =>
        intro x
        rw [List.foldl_cons, ih, List.prod_cons, mul_assoc]
  exact hfold shape elementSize

section
variable {ordered : List TensorInfo}

/-- A sorted chain is in order once its last tensor is. -/
theorem le_of_chained (hchain : Chained TensorInfo.start TensorInfo.stop ordered)
    (hsorted : ordered.Pairwise fun t u => t.start ≤ u.start)
    (hlast : ∀ t ∈ ordered.getLast?, t.start ≤ t.stop) : ∀ t ∈ ordered, t.start ≤ t.stop := by
  induction ordered with
  | nil => simp
  | cons t ordered ih =>
      cases ordered with
      | nil => simpa using hlast
      | cons u ordered =>
          have hnext : t.stop = u.start := (List.isChain_cons_cons.mp hchain).1
          have htu := (List.pairwise_cons.mp hsorted).1 u (by simp)
          have hrest := ih (List.IsChain.tail hchain) (List.pairwise_cons.mp hsorted).2
            (by simpa using hlast)
          intro v hv
          rcases List.mem_cons.mp hv with rfl | hv
          · exact hnext ▸ htu
          · exact hrest v hv

/-- The first start is the least. -/
theorem head_le {t₀ : TensorInfo} (hsorted : ordered.Pairwise fun t u => t.start ≤ u.start)
    (hhead : ordered.head? = some t₀) : ∀ t ∈ ordered, t₀.start ≤ t.start := by
  cases ordered with
  | nil => simp at hhead
  | cons t ordered =>
      obtain rfl := Option.some.inj hhead
      intro u hu
      rcases List.mem_cons.mp hu with rfl | hu
      · exact Int.le_refl _
      · exact (List.pairwise_cons.mp hsorted).1 u hu

/-- The last end is the greatest. -/
theorem le_getLast {last : TensorInfo} (hchain : Chained TensorInfo.start TensorInfo.stop ordered)
    (hle : ∀ t ∈ ordered, t.start ≤ t.stop) (hlast : ordered.getLast? = some last) :
    ∀ t ∈ ordered, t.stop ≤ last.stop := by
  obtain ⟨before, rfl⟩ := List.getLast?_eq_some_iff.mp hlast
  have hpair := (List.pairwise_append.mp (hchain.pairwise hle)).2.2
  intro t ht
  rcases List.mem_append.mp ht with hbefore | hself
  · exact Int.le_trans (hpair t hbefore last (by simp)) (hle last (by simp))
  · rw [List.mem_singleton.mp hself]

end

/-- The extents of an accepted file of which the first start and the last extent are trusted. -/
theorem Trusted.extents {torch : Torch} {file : SafetensorsMetadata × ℕ} (h : Trusted torch file)
    (hne : file.1.tensorMetadata ≠ [])
    (hchain : Chained TensorInfo.start TensorInfo.stop
      (sortByStart TensorInfo.start file.1.tensorMetadata)) :
    ∀ t ∈ file.1.tensorMetadata,
      0 ≤ t.start ∧ t.start ≤ t.stop ∧ file.1.headerSize + t.stop ≤ (file.2 : ℤ) := by
  set ordered := sortByStart TensorInfo.start file.1.tensorMetadata with hordered
  have hperm : ordered.Perm file.1.tensorMetadata := sortByStart_perm _ _
  have hsorted := sortByStart_pairwise TensorInfo.start file.1.tensorMetadata
  have hne' : ordered ≠ [] := fun hnil => hne (List.Perm.nil_eq (hnil ▸ hperm)).symm
  have hle := le_of_chained hchain hsorted fun t ht => (h.last t ht).1
  intro t ht
  have ht' : t ∈ ordered := hperm.mem_iff.mpr ht
  have hhead := List.head?_eq_some_head hne'
  have hlast := List.getLast?_eq_some_getLast hne'
  have hfirst := h.first _ hhead
  have hend := (h.last _ hlast).2
  have hlow := head_le hsorted hhead t ht'
  have hhigh := le_getLast hchain hle hlast t ht'
  exact ⟨by omega, hle t ht', by omega⟩

section
variable {torch : Torch} {i : ℕ} {ms : List SafetensorsMetadata} {ordered : List TensorInfo}
  {offsets : List (ℕ × ℤ)}

theorem Collected.mem_iff (h : Collected i ms ordered offsets) {t : TensorInfo} :
    t ∈ ordered ↔ ∃ m ∈ ms, t ∈ m.tensorMetadata := by
  induction h with
  | nil => simp
  | @cons i m ms ordered ordered' offsets offsets' horder hrest ih =>
      obtain ⟨rfl, -⟩ := orderTensors_ok horder
      rw [List.mem_append, ih, (sortByStart_perm _ _).mem_iff]
      simp

/-- Files that were accepted have tensors, and these are a chain once sorted. -/
theorem Collected.chained (h : Collected i ms ordered offsets) : ∀ m ∈ ms,
    m.tensorMetadata ≠ [] ∧
      Chained TensorInfo.start TensorInfo.stop (sortByStart TensorInfo.start m.tensorMetadata) := by
  induction h with
  | nil => simp
  | @cons i m ms ordered ordered' offsets offsets' horder hrest ih =>
      intro m' hm'
      rcases List.mem_cons.mp hm' with rfl | hm'
      · obtain ⟨rfl, hne, -, hchain⟩ := orderTensors_ok horder
        refine ⟨fun hnil => hne ?_, hchain⟩
        rw [hnil, sortByStart, List.mergeSort_nil]
      · exact ih m' hm'

/-- The offsets of one file do not decrease. -/
theorem fileOffsets_pairwise (headerSize : ℕ)
    (hchain : Chained TensorInfo.start TensorInfo.stop ordered)
    (hsorted : ordered.Pairwise fun t u => t.start ≤ u.start)
    (hle : ∀ t ∈ ordered, t.start ≤ t.stop) :
    (fileOffsets i headerSize ordered).Pairwise fun o o' => o.2 ≤ o'.2 := by
  refine List.pairwise_append.mpr ⟨?_, ?_, ?_⟩
  · exact List.pairwise_map.mpr (hsorted.imp fun h => by simpa using h)
  · cases ordered.getLast? <;> simp
  · intro o ho o' ho'
    obtain ⟨t, ht, rfl⟩ := List.mem_map.mp ho
    obtain ⟨last, hlast, rfl⟩ := Option.map_eq_some_iff.mp (Option.mem_toList.mp ho')
    have hstop := le_getLast hchain hle hlast t ht
    have hstart := hle t ht
    simp only
    omega

theorem Collected.sorted (h : Collected i ms ordered offsets)
    (hle : ∀ m ∈ ms, ∀ t ∈ m.tensorMetadata, t.start ≤ t.stop) :
    offsets.Pairwise fun o o' => o.1 = o'.1 → o.2 ≤ o'.2 := by
  induction h with
  | nil => exact List.Pairwise.nil
  | @cons i m ms ordered ordered' offsets offsets' horder hrest ih =>
      obtain ⟨rfl, -, rfl, hchain⟩ := orderTensors_ok horder
      refine List.pairwise_append.mpr ⟨?_, ih fun m' hm' => hle m' (by simp [hm']), ?_⟩
      · have hpair := fileOffsets_pairwise (i := i) m.headerSize hchain
          (sortByStart_pairwise _ _)
          fun t ht => hle m (by simp) t ((sortByStart_perm _ _).mem_iff.mp ht)
        refine hpair.imp ?_
        intro o o' h _
        exact h
      · intro o ho o' ho' heq
        have hindex := hrest.index_le o' ho'
        have hself : o.1 = i := by
          simp only [fileOffsets, List.mem_append, List.mem_map, Option.mem_toList,
            Option.map_eq_some_iff] at ho
          rcases ho with ⟨t, -, rfl⟩ | ⟨t, -, rfl⟩ <;> rfl
        omega

/-- Offsets as the loader takes them. -/
def toOffsets (offsets : List (ℕ × ℤ)) : List (ℕ × ℕ) := offsets.map fun o => (o.1, o.2.toNat)

theorem toOffsets_cast (h : ∀ o ∈ offsets, 0 ≤ o.2) :
    (toOffsets offsets).map (fun o => (o.1, (o.2 : ℤ))) = offsets := by
  rw [toOffsets, List.map_map]
  refine (List.map_congr_left fun o ho => ?_).trans (List.map_id offsets)
  simp only [Function.comp_apply, Int.toNat_of_nonneg (h o ho), id]

theorem Collected.nonneg (h : Collected i ms ordered offsets)
    (hextents : ∀ m ∈ ms, ∀ t ∈ m.tensorMetadata, 0 ≤ t.start ∧ t.start ≤ t.stop) :
    ∀ o ∈ offsets, 0 ≤ o.2 := by
  induction h with
  | nil => simp
  | @cons i m ms ordered ordered' offsets offsets' horder hrest ih =>
      obtain ⟨rfl, -, rfl, -⟩ := orderTensors_ok horder
      have hself : ∀ t ∈ sortByStart TensorInfo.start m.tensorMetadata,
          0 ≤ t.start ∧ t.start ≤ t.stop := fun t ht =>
        hextents m (by simp) t ((sortByStart_perm _ _).mem_iff.mp ht)
      intro o ho
      rcases List.mem_append.mp ho with ho | ho
      · simp only [fileOffsets, List.mem_append, List.mem_map, Option.mem_toList,
          Option.map_eq_some_iff] at ho
        rcases ho with ⟨t, ht, rfl⟩ | ⟨t, ht, rfl⟩
        · have hstart := hself t ht
          simp only
          omega
        · have hstop := hself t (List.mem_of_getLast? ht)
          simp only
          omega
      · exact ih (fun m' hm' => hextents m' (by simp [hm'])) o ho

/-- Behind the first start of a chain its other offsets may come. -/
theorem offsetsFrom_tail (headerSize : ℕ) {more : List (ℕ × ℕ)} {t : TensorInfo}
    {rest : List TensorInfo} (filled : Bool)
    (hchain : Chained TensorInfo.start TensorInfo.stop (t :: rest))
    (hle : ∀ u ∈ t :: rest, u.start ≤ u.stop) (hmore : ∀ o, OffsetsFrom i o true more) :
    OffsetsFrom i (t.start + (headerSize : ℤ)).toNat filled
      (toOffsets (fileOffsets i headerSize (t :: rest)).tail ++ more) := by
  have ht := hle t (by simp)
  induction rest generalizing t filled with
  | nil =>
      refine .inl ⟨rfl, ?_, hmore _⟩
      change (t.start + (headerSize : ℤ)).toNat ≤ (t.stop + (headerSize : ℤ)).toNat
      exact Int.toNat_le_toNat (by omega)
  | cons u rest ih =>
      have hnext : t.stop = u.start := (List.isChain_cons_cons.mp hchain).1
      have htail : (fileOffsets i headerSize (t :: u :: rest)).tail
          = (i, u.start + (headerSize : ℤ)) :: (fileOffsets i headerSize (u :: rest)).tail := by
        simp only [fileOffsets, List.map_cons, List.getLast?_cons_cons, List.cons_append,
          List.tail_cons]
      rw [htail]
      refine .inl ⟨rfl, Int.toNat_le_toNat (by omega), ?_⟩
      exact ih true (List.IsChain.tail hchain) (fun v hv => hle v (List.mem_cons_of_mem t hv))
        (hle u (by simp))

/-- The collected offsets are those of files with tensors, one file behind the other. -/
theorem Collected.offsetsFrom (h : Collected i ms ordered offsets)
    (hle : ∀ m ∈ ms, ∀ t ∈ m.tensorMetadata, t.start ≤ t.stop) :
    (ms = [] ∧ offsets = []) ∨
      ∃ o rest, toOffsets offsets = (i, o) :: rest ∧ OffsetsFrom i o false rest := by
  induction h with
  | nil => exact .inl ⟨rfl, rfl⟩
  | @cons i m ms ordered ordered' offsets offsets' horder hrest ih =>
      obtain ⟨hsorted, hne, rfl, hchain⟩ := orderTensors_ok horder
      right
      have hmore : ∀ o, OffsetsFrom i o true (toOffsets offsets') := by
        intro o
        rcases ih fun m' hm' => hle m' (by simp [hm']) with ⟨-, rfl⟩ | ⟨o', rest, hoffsets, hfrom⟩
        · rfl
        · rw [hoffsets]
          exact .inr ⟨rfl, rfl, hfrom⟩
      cases ordered with
      | nil => exact absurd rfl hne
      | cons t rest =>
          have hle' : ∀ u ∈ t :: rest, u.start ≤ u.stop := fun u hu =>
            hle m (by simp) u ((sortByStart_perm _ _).mem_iff.mp (hsorted ▸ hu))
          refine ⟨_, _, ?_, offsetsFrom_tail m.headerSize false hchain hle' hmore⟩
          simp only [toOffsets, List.map_append]
          rfl

end

/-! ## Accepted headers -/

/-- **Accepted headers describe readable tensors exactly if the first start, the last extent and
the sizes of the views can be trusted.** -/
theorem readable_iff {torch : Torch} {files : List (SafetensorsMetadata × ℕ)} {h : Headers}
    (haccepted : readHeaders 0 (files.map Prod.fst) {} = .ok h) :
    Readable torch files h ↔ ∀ file ∈ files, Trusted torch file := by
  obtain ⟨ordered, offsets, hcollected, htensors, hoffsets⟩ := readHeaders_collected haccepted
  simp only [List.nil_append] at htensors hoffsets
  have hmem : ∀ file ∈ files, ∀ t ∈ file.1.tensorMetadata, t ∈ ordered := fun file hfile t ht =>
    hcollected.mem_iff.mpr ⟨file.1, List.mem_map_of_mem hfile, ht⟩
  constructor
  · intro hreadable file hfile
    have hsorted := sortByStart_perm TensorInfo.start file.1.tensorMetadata
    refine ⟨fun t ht => ?_, fun t ht => ?_, fun t ht dtype hdtype => ?_⟩
    · exact (hreadable.extents file hfile t (hsorted.mem_iff.mp (List.mem_of_mem_head? ht))).1
    · exact (hreadable.extents file hfile t (hsorted.mem_iff.mp (List.mem_of_mem_getLast? ht))).2
    · have hsize := hreadable.sizes t (htensors ▸ hmem file hfile t ht)
        (getTensorSize (torch.elementSize dtype) t.shape) (by rw [Torch.viewSize, hdtype]; rfl)
      rw [← hsize, getTensorSize_eq]
  · intro htrusted
    have hextents : ∀ file ∈ files, ∀ t ∈ file.1.tensorMetadata,
        0 ≤ t.start ∧ t.start ≤ t.stop ∧ file.1.headerSize + t.stop ≤ (file.2 : ℤ) := by
      intro file hfile
      obtain ⟨hne, hchain⟩ := hcollected.chained file.1 (List.mem_map_of_mem hfile)
      exact (htrusted file hfile).extents hne hchain
    have hle : ∀ m ∈ files.map Prod.fst, ∀ t ∈ m.tensorMetadata, t.start ≤ t.stop := by
      intro m hm t ht
      obtain ⟨file, hfile, rfl⟩ := List.mem_map.mp hm
      exact (hextents file hfile t ht).2.1
    have hsizes : ∀ t ∈ ordered, ∀ size, torch.viewSize t = some size → size = t.stop - t.start := by
      intro t ht size hsize
      obtain ⟨m, hm, htm⟩ := hcollected.mem_iff.mp ht
      obtain ⟨file, hfile, rfl⟩ := List.mem_map.mp hm
      obtain ⟨dtype, hdtype, rfl⟩ := Option.map_eq_some_iff.mp hsize
      rw [getTensorSize_eq]
      exact (htrusted file hfile).sizes t htm dtype hdtype
    refine ⟨hextents, htensors ▸ hsizes, hoffsets ▸ hcollected.sorted hle, ?_, ?_⟩
    · intro hne
      rcases hcollected.offsetsFrom hle with ⟨hnil, -⟩ | ⟨o, rest, heq, hfrom⟩
      · exact absurd (List.map_eq_nil_iff.mp hnil) hne
      · refine ⟨toOffsets offsets, heq ▸ ⟨rfl, hfrom⟩, ?_⟩
        rw [hoffsets]
        refine toOffsets_cast (hcollected.nonneg fun m hm t ht => ?_)
        obtain ⟨file, hfile, rfl⟩ := List.mem_map.mp hm
        obtain ⟨hstart, hstop, -⟩ := hextents file hfile t ht
        exact ⟨hstart, hstop⟩
    · intro l hl i t size ht hsize
      rw [htensors] at ht
      rw [hoffsets] at hl
      have hreserved : l.layout.tensors.map TensorMetadate.size
          = ordered.map fun t => (t.stop - t.start).toNat := by
        rw [l.tensors_sizes, tensorSizes_eq, hl, hcollected.sizes, List.map_map]
        rfl
      have hget := congrArg (·[i]?) hreserved
      simp only [List.getElem?_map, ht, Option.map_some] at hget
      obtain ⟨u, hu, husize⟩ := Option.map_eq_some_iff.mp hget
      have hview := hsizes t (List.mem_of_getElem? ht) size hsize
      exact ⟨u, hu, by omega⟩

/-! ## A packed tensor -/

/-- A torch with every dtype of the map; two elements of four bits have one byte together. -/
def recentTorch : Torch where
  hasattr := fun _ => true
  elementSize := fun dtype =>
    (List.lookup dtype [("float64", 8), ("float32", 4), ("float16", 2), ("bfloat16", 2),
      ("int64", 8), ("int32", 4), ("int16", 2), ("complex64", 8), ("uint64", 8), ("uint32", 4),
      ("uint16", 2)]).getD 1

/-- Two tensors behind a header of 100 bytes, in a file of 114. -/
theorem readable_twoTensors :
    Readable recentTorch
      [(⟨none, [⟨"a", "F32", [2], (0, 8)⟩, ⟨"b", "BF16", [3, 1], (8, 14)⟩], 100⟩, 114)]
      ⟨none, [⟨"a", "F32", [2], (0, 8)⟩, ⟨"b", "BF16", [3, 1], (8, 14)⟩],
        [(0, 100), (0, 108), (0, 114)]⟩ :=
  (readable_iff (by
    simp only [List.map_cons, List.map_nil, readHeaders, readHeader, orderTensors]
    rw [sortByStart_of_pairwise (by decide)]
    rfl)).mpr (by
    intro file hfile
    obtain rfl := List.mem_singleton.mp hfile
    constructor
    case first => rw [sortByStart_of_pairwise (by decide)]; decide
    case last => rw [sortByStart_of_pairwise (by decide)]; decide
    case sizes => decide)

/-- Two elements of four bits have one byte in the file, and a view of two bytes. -/
theorem packedTensor_overruns : ¬ ∀ (torch : Torch) (files : List (SafetensorsMetadata × ℕ))
    (h : Headers), readHeaders 0 (files.map Prod.fst) {} = .ok h →
    (∀ t ∈ h.orderedTensorMetadatas, (torch.viewSize t).isSome = true) →
    Readable torch files h := by
  intro h
  have hreadable := h recentTorch [(⟨none, [⟨"a", "F4", [2], (0, 1)⟩], 100⟩, 101)]
    ⟨none, [⟨"a", "F4", [2], (0, 1)⟩], [(0, 100), (0, 101)]⟩ (by
      simp only [List.map_cons, List.map_nil, readHeaders, readHeader, orderTensors]
      rw [sortByStart_of_pairwise (by decide)]
      rfl) (by decide)
  have hsize := hreadable.sizes ⟨"a", "F4", [2], (0, 1)⟩ (by simp) 2 (by decide)
  exact absurd hsize (by decide)

end InstantTensor
