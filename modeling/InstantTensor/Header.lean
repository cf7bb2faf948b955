/-
# `InstantTensor.Header` — the headers of the files

`safe_open.__init__` sorts the tensors of a header by their start, asks that each ends where
the next one starts, and lists the starts and the last end as offsets in the file.

The order of the keys in the header is not to matter, and for tensors with bytes it does
not.  A tensor without bytes has the start of the tensor behind it, and the sort, which looks at
the start alone, leaves the two as they come: the header that names the empty tensor last is
turned away (`emptyTensor_order`).  `order_independent_iff` says when the order does not matter.
-/
import Mathlib.Order.Basic
import Mathlib.Algebra.Order.Ring.Int
import InstantTensor.Lib.Intervals

namespace InstantTensor

/-! ## Headers -/

/-- An entry of a header, with the data it holds for its tensor. -/
structure TensorInfo where
  name : String
  dtype : String
  shape : List ℤ
  dataOffsets : ℤ × ℤ
deriving DecidableEq, Repr

/-- What `read_safetensors_metadata` returns of a file, its tensors in the order of the keys. -/
structure SafetensorsMetadata where
  fileMetadata : Option (List (String × String))
  tensorMetadata : List TensorInfo
  headerSize : ℕ
deriving DecidableEq, Repr

inductive HeaderError where
  /-- "InstantTensor only supports pytorch format for now" -/
  | format
  /-- "Safetensors data offsets must be contiguous" -/
  | notContiguous
  /-- The last tensor of none. -/
  | indexError
deriving DecidableEq, Repr

/-- What the constructor collects of all files. -/
structure Headers where
  fileMetadata : Option (List (String × String)) := none
  orderedTensorMetadatas : List TensorInfo := []
  tensorOffsets : List (ℕ × ℤ) := []
deriving DecidableEq, Repr

def TensorInfo.start (t : TensorInfo) : ℤ := t.dataOffsets.1

def TensorInfo.stop (t : TensorInfo) : ℤ := t.dataOffsets.2

/-! ## The order of the tensors -/

/-- `all(...)` over the neighbours. -/
def contiguous : List TensorInfo → Bool
  | t :: u :: rest => decide (t.stop = u.start) && contiguous (u :: rest)
  | _ => true

/-- The tensors of one file in order, and their offsets in the file. -/
def orderTensors (fileIndex headerSize : ℕ) (tensorMetadata : List TensorInfo) :
    Except HeaderError (List TensorInfo × List (ℕ × ℤ)) :=
  let ordered := sortByStart TensorInfo.start tensorMetadata
  if contiguous ordered then
    match ordered.getLast? with
    | none => .error .indexError
    | some last =>
        .ok (ordered, ordered.map (fun t => (fileIndex, t.start + (headerSize : ℤ)))
          ++ [(fileIndex, last.stop + (headerSize : ℤ))])
  else .error .notContiguous

/-- The body of the loop over the files. -/
def readHeader (fileIndex : ℕ) (m : SafetensorsMetadata) (h : Headers) : Except HeaderError Headers :=
  if m.fileMetadata.any fun d => (d.lookup "format").getD "pt" != "pt" then .error .format
  else do
    let (ordered, offsets) ← orderTensors fileIndex m.headerSize m.tensorMetadata
    return {
      fileMetadata := m.fileMetadata <|> h.fileMetadata
      orderedTensorMetadatas := h.orderedTensorMetadatas ++ ordered
      tensorOffsets := h.tensorOffsets ++ offsets }

/-- The loop over the files, from `fileIndex` on. -/
def readHeaders : ℕ → List SafetensorsMetadata → Headers → Except HeaderError Headers
  | _, [], h => .ok h
  | fileIndex, m :: ms, h => do
      let h ← readHeader fileIndex m h
      readHeaders (fileIndex + 1) ms h

/-! ## When the order of the keys does not matter -/

/-- The extents and offsets that come out, or the error. -/
def orderedExtents (fileIndex headerSize : ℕ) (tensors : List TensorInfo) :
    Except HeaderError (List (ℤ × ℤ) × List (ℕ × ℤ)) :=
  (orderTensors fileIndex headerSize tensors).map fun r => (r.1.map TensorInfo.dataOffsets, r.2)

/-- **The order of the keys does not matter.** -/
structure OrderIndependent (fileIndex headerSize : ℕ) (tensors : List TensorInfo) : Prop where
  accepted_iff : (∃ r, orderTensors fileIndex headerSize tensors = .ok r) ↔
    Chainable TensorInfo.start TensorInfo.stop tensors
  same : ∀ tensors' : List TensorInfo, tensors'.Perm tensors →
    orderedExtents fileIndex headerSize tensors' = orderedExtents fileIndex headerSize tensors

theorem contiguous_iff {l : List TensorInfo} :
    contiguous l = true ↔ Chained TensorInfo.start TensorInfo.stop l := by
  induction l with
  | nil => simp [contiguous, Chained]
  | cons t l ih =>
      cases l with
      | nil => simp [contiguous, Chained]
      | cons u l =>
          rw [contiguous, Bool.and_eq_true, decide_eq_true_eq, ih, Chained, Chained,
            List.isChain_cons_cons]

section
variable {fileIndex headerSize : ℕ} {tensors : List TensorInfo}

/-- What `orderTensors` gives if the sorted tensors are a chain. -/
def chainOffsets (fileIndex headerSize : ℕ) (extents : List (ℤ × ℤ)) : List (ℕ × ℤ) :=
  extents.map (fun e => (fileIndex, e.1 + (headerSize : ℤ)))
    ++ (extents.getLast?.map fun e => (fileIndex, e.2 + (headerSize : ℤ))).toList

theorem orderTensors_of_chained (hne : tensors ≠ [])
    (h : Chained TensorInfo.start TensorInfo.stop (sortByStart TensorInfo.start tensors)) :
    orderTensors fileIndex headerSize tensors = .ok (sortByStart TensorInfo.start tensors,
      chainOffsets fileIndex headerSize
        ((sortByStart TensorInfo.start tensors).map TensorInfo.dataOffsets)) := by
  have hsorted : sortByStart TensorInfo.start tensors ≠ [] := fun hnil =>
    hne (List.Perm.nil_eq (hnil ▸ sortByStart_perm TensorInfo.start tensors)).symm
  rw [orderTensors, if_pos (contiguous_iff.mpr h), List.getLast?_eq_some_getLast hsorted]
  simp only [chainOffsets, List.map_map, List.getLast?_map, Option.map_map,
    List.getLast?_eq_some_getLast hsorted]
  rfl

theorem orderTensors_of_not_chained
    (h : ¬ Chained TensorInfo.start TensorInfo.stop (sortByStart TensorInfo.start tensors)) :
    orderTensors fileIndex headerSize tensors = .error .notContiguous :=
  if_neg (mt contiguous_iff.mp h)

/-- Accepted tensors are in a chain. -/
theorem chained_of_orderTensors {r : List TensorInfo × List (ℕ × ℤ)}
    (h : orderTensors fileIndex headerSize tensors = .ok r) :
    Chained TensorInfo.start TensorInfo.stop (sortByStart TensorInfo.start tensors) := by
  by_contra hnot
  rw [orderTensors_of_not_chained hnot] at h
  cases h

/-- What comes out of separated tensors that can be chained. -/
theorem orderedExtents_of_chainable (fileIndex headerSize : ℕ) (hne : tensors ≠ [])
    (hle : ∀ t ∈ tensors, t.start ≤ t.stop)
    (hsep : Separated TensorInfo.start TensorInfo.stop tensors) {c : List TensorInfo}
    (hc : c.Perm tensors) (hchain : Chained TensorInfo.start TensorInfo.stop c) :
    Chained TensorInfo.start TensorInfo.stop (sortByStart TensorInfo.start tensors) ∧
    orderedExtents fileIndex headerSize tensors = .ok (c.map TensorInfo.dataOffsets,
      chainOffsets fileIndex headerSize (c.map TensorInfo.dataOffsets)) := by
  have hmap : (sortByStart TensorInfo.start tensors).map TensorInfo.dataOffsets
      = c.map TensorInfo.dataOffsets := map_sortByStart hle hsep hc hchain
  have hsorted : Chained TensorInfo.start TensorInfo.stop
      (sortByStart TensorInfo.start tensors) := by
    rw [chained_iff_map] at hchain ⊢
    exact hmap ▸ hchain
  refine ⟨hsorted, ?_⟩
  rw [orderedExtents, orderTensors_of_chained hne hsorted, hmap]
  simp [Except.map, hmap]

end

/-- **The order of the keys does not matter exactly if the tensors cannot be chained at all, or
no tensor without bytes starts where one with bytes does.** -/
theorem order_independent_iff (fileIndex headerSize : ℕ) {tensors : List TensorInfo}
    (hne : tensors ≠ []) (hle : ∀ t ∈ tensors, t.start ≤ t.stop) :
    OrderIndependent fileIndex headerSize tensors ↔
      ¬ Chainable TensorInfo.start TensorInfo.stop tensors ∨
        ∀ t ∈ tensors, ∀ u ∈ tensors, t.start = t.stop → u.start = t.start → u.stop = u.start := by
  constructor
  · intro h
    by_contra hnot
    obtain ⟨hchain, hsep⟩ := not_or.mp hnot
    obtain ⟨r, hr⟩ := h.accepted_iff.mpr (not_not.mp hchain)
    obtain ⟨tensors', hperm, hbad⟩ := not_chained_sortByStart hle hsep
    have hsame := h.same tensors' hperm
    rw [orderedExtents, orderedExtents, orderTensors_of_not_chained hbad, hr] at hsame
    cases hsame
  · intro h
    by_cases hchain : Chainable TensorInfo.start TensorInfo.stop tensors
    · -- every arrangement comes out as the chain
      have hsep : Separated TensorInfo.start TensorInfo.stop tensors :=
        h.resolve_left (not_not.mpr hchain)
      obtain ⟨c, hc, hcchain⟩ := hchain
      have hall : ∀ tensors' : List TensorInfo, tensors'.Perm tensors → _ := fun tensors' hperm =>
        orderedExtents_of_chainable fileIndex headerSize
          (fun hnil => hne (List.Perm.nil_eq (hnil ▸ hperm)).symm)
          (fun t ht => hle t (hperm.mem_iff.mp ht)) (hsep.perm hperm) (hc.trans hperm.symm) hcchain
      obtain ⟨hsorted, hextents⟩ := hall tensors (List.Perm.refl _)
      refine ⟨⟨fun _ => ⟨c, hc, hcchain⟩, fun _ => ⟨_, orderTensors_of_chained hne hsorted⟩⟩, ?_⟩
      intro tensors' hperm
      rw [(hall tensors' hperm).2, hextents]
    · -- every arrangement is turned away
      have hreject : ∀ tensors' : List TensorInfo, tensors'.Perm tensors →
          orderTensors fileIndex headerSize tensors' = .error .notContiguous :=
        fun tensors' hperm => orderTensors_of_not_chained fun h =>
          hchain ⟨_, (sortByStart_perm _ tensors').trans hperm, h⟩
      have hself := hreject tensors (List.Perm.refl _)
      refine ⟨⟨fun ⟨r, hr⟩ => ?_, fun h => absurd h hchain⟩, fun tensors' hperm => ?_⟩
      · rw [hself] at hr
        cases hr
      · rw [orderedExtents, orderedExtents, hreject tensors' hperm, hself]

/-- Two tensors of four bytes and one without bytes behind them, in any order of the keys. -/
theorem order_independent_emptyLast :
    OrderIndependent 0 100 [⟨"c", "F32", [0], (8, 8)⟩, ⟨"b", "F32", [1], (4, 8)⟩,
      ⟨"a", "F32", [1], (0, 4)⟩] :=
  (order_independent_iff 0 100 (by decide) (by decide)).mpr (.inr (by decide))

/-- With the empty tensor in front the order of the keys decides whether the header is
accepted. -/
theorem emptyTensor_order : ¬ ∀ (fileIndex headerSize : ℕ) (tensors : List TensorInfo),
    tensors ≠ [] → (∀ t ∈ tensors, t.start ≤ t.stop) →
    OrderIndependent fileIndex headerSize tensors := by
  intro h
  have hsame := (h 0 100 [⟨"a", "F32", [0], (0, 0)⟩, ⟨"b", "F32", [1], (0, 4)⟩] (by decide)
    (by decide)).same [⟨"b", "F32", [1], (0, 4)⟩, ⟨"a", "F32", [0], (0, 0)⟩] (by decide)
  rw [orderedExtents, orderedExtents, orderTensors, orderTensors,
    sortByStart_of_pairwise (by decide), sortByStart_of_pairwise (by decide)] at hsame
  exact absurd hsame (by decide)

end InstantTensor
