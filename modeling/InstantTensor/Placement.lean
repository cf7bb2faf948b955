/-
# `InstantTensor.Placement` — what `compute_layout` always delivers

The exceptions of `compute_layout` are raised nowhere on a load, and its differences on `size_t`
do not wrap: as each of them stops the model, both are that the model returns.  What it
returns is well-formed: the tensors of the frontend's list in its order, chunks that
`post_read_chunk` can read, and each tensor within the buffer (`layout_wellFormed`).

A tensor fits after a wrap by the padding of `init_buffer`, and `current_chunk_size` stays the
distance of the tensor to the chunk and at most `world_chunk_size` through splits, wraps
and file switches; both are part of the simulation of `InstantTensor.Refine`.
-/
import InstantTensor.Tiling

namespace InstantTensor

/-- The tensors an offset list describes, by file, offset and size. -/
def describedTensors : List (ℕ × ℕ) → List (ℕ × ℕ × ℕ)
  | (f, o) :: (f', o') :: rest =>
      if f = f' then (f, o, o' - o) :: describedTensors ((f', o') :: rest)
      else describedTensors ((f', o') :: rest)
  | _ => []

/-- What an entry of the layout says of the file. -/
def TensorMetadate.described (t : TensorMetadate) : ℕ × ℕ × ℕ := (t.fileIndex, t.fileOffset, t.size)

structure Layout.WellFormed (g : Geometry) (offs : List (ℕ × ℕ)) (L : Layout) : Prop where
  /-- One entry for each tensor, in the same order. -/
  tensors : L.tensors.map TensorMetadate.described = describedTensors offs
  chunks : ∀ c ∈ L.chunks, c.Postable g
  inBuffer : ∀ t ∈ L.tensors, t.deviceBufferOffset + t.size ≤ g.bufferSize

theorem describedTensors_sizes (offs : List (ℕ × ℕ)) :
    (describedTensors offs).map (fun d => d.2.2) = tensorSizes offs := by
  fun_induction describedTensors offs with
  | case1 f o o' rest ih => rw [List.map_cons, ih, tensorSizes, if_pos rfl]
  | case2 f o f' o' rest hne ih => rw [ih, tensorSizes, if_neg hne]
  | case3 offs hnot =>
      rcases offs with _ | ⟨⟨f, o⟩, _ | ⟨⟨f', o'⟩, rest⟩⟩
      · rfl
      · rfl
      · exact absurd rfl (hnot f o f' o' rest)

/-! ## The tensors of a plan -/

def Segment.described (s : Segment) : List (ℕ × ℕ × ℕ) :=
  s.extents.map fun e => (s.fileIndex, e.1, e.2 - e.1)

section
variable {g : Geometry}

theorem Segment.described_push (s : Segment) (o o' : ℕ) :
    (s.push o o').described = s.described ++ [(s.fileIndex, o, o' - o)] := by
  rw [Segment.described, Segment.push, List.map_append]
  rfl

/-- A plan has the tensors of its offsets, behind those of the open lap. -/
theorem planFrom_described {offs : List (ℕ × ℕ)} {s : Segment} {closed : Lap}
    (hs : ∀ e ∈ offs.head?, s.fileIndex = e.1) :
    (planFrom g offs s closed).flatMap (List.flatMap Segment.described)
      = (closed ++ [s]).flatMap Segment.described ++ describedTensors offs := by
  fun_induction planFrom g offs s closed with
  | case1 f o f' o' rest s closed hne ih =>
      have hopened : (Segment.opened g f' o' (s.devStop g)).described = [] := rfl
      rw [ih (fun e he => by cases he; rfl), describedTensors, if_neg hne, List.flatMap_append,
        List.flatMap_singleton, hopened, List.append_nil]
  | case2 f o f' o' rest s closed hf hfits ih =>
      obtain rfl : s.fileIndex = f := hs _ rfl
      obtain rfl : s.fileIndex = f' := not_not.mp hf
      rw [ih (fun e he => by cases he; rfl), describedTensors, if_pos rfl, List.flatMap_append,
        List.flatMap_append, List.flatMap_singleton, List.flatMap_singleton,
        Segment.described_push]
      simp only [List.append_assoc, List.singleton_append]
  | case3 f o f' o' rest s closed hf hfull ih =>
      obtain rfl := not_not.mp hf
      have hopened : (Segment.opened g f o 0).described = [] := rfl
      rw [List.flatMap_cons, ih (fun e he => by cases he; rfl), describedTensors, if_pos rfl,
        List.nil_append, List.flatMap_singleton, Segment.described_push, hopened]
      rfl
  | case4 offs s closed hnot =>
      have hnone : describedTensors offs = [] := by
        match offs, hnot with
        | [], _ => rfl
        | [_], _ => rfl
        | (f, o) :: (f', o') :: rest, hnot => exact absurd rfl (hnot f o f' o' rest)
      rw [hnone, List.flatMap_singleton, List.append_nil]

/-- What an entry says apart from its chunks is read off its extent. -/
theorem Lap.map_tensors {β : Type} {k : TensorMetadate → β}
    (hk : ∀ t last prefetch, k { t with lastChunkId := last, prefetchChunkId := prefetch } = k t)
    (lap : Lap) (n : ℕ) :
    (lap.tensors g n).map k = lap.flatMap fun s => s.extents.map fun e => k (s.entry g 0 e) := by
  induction lap generalizing n with
  | nil => rfl
  | cons s lap ih =>
      rw [Lap.tensors, List.map_append, ih, List.flatMap_cons, Segment.tensors_eq, List.map_map]
      exact congrArg (· ++ _) (List.map_congr_left fun e _ => hk (s.entry g 0 e) _ _)

theorem map_settle_tensors {β : Type} {k : TensorMetadate → β}
    (hk : ∀ t last prefetch, k { t with lastChunkId := last, prefetchChunkId := prefetch } = k t)
    (laps : List Lap) (n : ℕ) :
    (settle g n laps).tensors.map k
      = laps.flatMap (List.flatMap fun s => s.extents.map fun e => k (s.entry g 0 e)) := by
  induction laps generalizing n with
  | nil => rfl
  | cons lap laps ih =>
      rw [settle, List.map_append, ih, List.flatMap_cons, List.map_map, ← Lap.map_tensors hk lap n]
      exact congrArg (· ++ _) (List.map_congr_left fun t _ => hk t _ _)

theorem settle_described {offs : List (ℕ × ℕ)} (hv : ValidOffsets offs) :
    (settle g 0 (plan g offs)).tensors.map TensorMetadate.described = describedTensors offs := by
  rw [map_settle_tensors fun _ _ _ => rfl]
  match offs, hv with
  | (f, o) :: rest, _ =>
      exact @planFrom_described g _ (Segment.opened g f o 0) [] fun e he => by cases he; rfl

end

/-! ## The layout of a load -/

theorem Load.tensors_described (l : Load) :
    l.layout.tensors.map TensorMetadate.described = describedTensors l.args.tensorOffsets := by
  rw [l.layout_eq]
  exact settle_described l.valid

/-- The layout reserves for each tensor the bytes up to the next offset. -/
theorem Load.tensors_sizes (l : Load) :
    l.layout.tensors.map TensorMetadate.size = tensorSizes l.args.tensorOffsets := by
  have hdescribed := congrArg (List.map fun d => d.2.2) l.tensors_described
  rw [List.map_map, describedTensors_sizes] at hdescribed
  exact hdescribed

theorem Load.tensor_in_buffer (l : Load) {t : TensorMetadate} (ht : t ∈ l.layout.tensors) :
    t.deviceBufferOffset + t.size ≤ l.geometry.bufferSize := by
  rw [l.layout_eq] at ht
  obtain ⟨σ, hlaps, e, he, rfl⟩ := mem_settle_tensors.mp ht
  have hlap : σ.lapBefore ++ σ.seg :: σ.lapAfter ∈ l.plan := hlaps ▸ σ.mem_plan
  have hsound := (l.plan_sound _ hlap).segment σ.seg (by simp)
  have hentry := (hsound.entry_dev l.wf he 0).2
  exact hentry.trans (hsound.fits (List.ne_nil_of_mem he))

/-- **`compute_layout` returns on every load, with a well-formed layout.** -/
theorem Load.layout_wellFormed (l : Load) :
    ∃ L, computeLayout l.geometry l.args.tensorOffsets = .ok L ∧
      L.WellFormed l.geometry l.args.tensorOffsets := by
  refine ⟨l.layout, l.computeLayout_eq, l.tensors_described, ?_, ?_⟩
  · exact fun c hc => l.postable hc
  · exact fun t ht => l.tensor_in_buffer ht

end InstantTensor
