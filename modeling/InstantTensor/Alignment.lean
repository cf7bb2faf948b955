/-
# `InstantTensor.Alignment` — every tensor is dtype-aligned

The layout aligns a tensor only where it opens a segment: the first one of a file and the first
one behind a wrap.  Every other tensor lies behind the one listed before it, with no gap
(`plan_placed`), whatever chunks the two are read in.  So its address is a multiple of its
element size as long as element sizes divide each other in the order of a file, which powers of
two that do not increase do.
-/
import InstantTensor.Placement

namespace InstantTensor

/-- Where an entry says its tensor is, in the file and on the device. -/
structure Place where
  fileIndex : ℕ
  fileOffset : ℕ
  size : ℕ
  deviceBufferOffset : ℕ

def Place.described (p : Place) : ℕ × ℕ × ℕ := (p.fileIndex, p.fileOffset, p.size)

def TensorMetadate.place (t : TensorMetadate) : Place :=
  ⟨t.fileIndex, t.fileOffset, t.size, t.deviceBufferOffset⟩

/-- A tensor of `fileIndex` at `dev` is aligned, or follows the last one without a gap. -/
def Follows (ps : List Place) (fileIndex dev : ℕ) : Prop :=
  firstTensorAlignment ∣ dev ∨
    ∃ p ∈ ps.getLast?, p.fileIndex = fileIndex ∧ dev = p.deviceBufferOffset + p.size

/-- Every tensor is aligned or follows the one before it. -/
inductive Placed : List Place → Prop
  | nil : Placed []
  | concat {ps : List Place} {p : Place} : Placed ps → Follows ps p.fileIndex p.deviceBufferOffset →
      Placed (ps ++ [p])

/-! ## The tensors of a plan -/

section
variable {g : Geometry}

def Segment.places (s : Segment) : List Place :=
  s.extents.map fun e => ⟨s.fileIndex, e.1, e.2 - e.1, s.dev + (e.1 - s.base)⟩

theorem Segment.places_push (s : Segment) (o o' : ℕ) :
    (s.push o o').places = s.places ++ [⟨s.fileIndex, o, o' - o, s.dev + (o - s.base)⟩] := by
  rw [Segment.places, Segment.push, List.map_append]
  rfl

/-- The byte a segment is opened for is aligned. -/
theorem Segment.opened_aligned (f o level : ℕ) :
    firstTensorAlignment ∣ (Segment.opened g f o level).dev
      + (o - (Segment.opened g f o level).base) := by
  have hlen : o - (Segment.opened g f o level).base = o % g.threadAlignment :=
    Segment.opened_len f o level
  rw [hlen]
  have hround := dvd_roundUp level firstTensorAlignment
  simp only [Segment.opened]
  simp only [firstTensorAlignment] at hround ⊢
  omega

/-- Pushing a tensor onto the open segment keeps what is placed. -/
theorem Placed.push {front : List Place} {s : Segment} {o' : ℕ} (hle : s.base ≤ s.stop)
    (ho : s.stop ≤ o') (h : Placed (front ++ s.places))
    (hnext : Follows (front ++ s.places) s.fileIndex (s.dev + (s.stop - s.base))) :
    Placed (front ++ (s.push s.stop o').places) ∧
      Follows (front ++ (s.push s.stop o').places) s.fileIndex (s.dev + (o' - s.base)) := by
  rw [Segment.places_push, ← List.append_assoc]
  refine ⟨.concat h hnext, .inr ⟨_, List.getLast?_concat, rfl, ?_⟩⟩
  simp only
  omega

theorem planFrom_placed (rest : List (ℕ × ℕ)) {f o : ℕ} {filled : Bool} {s : Segment} {closed : Lap}
    {front : List Place} (hv : OffsetsFrom f o filled rest) (hf : s.fileIndex = f)
    (hs : s.stop = o) (hle : s.base ≤ s.stop)
    (h : Placed (front ++ closed.flatMap Segment.places ++ s.places))
    (hnext : Follows (front ++ closed.flatMap Segment.places ++ s.places) s.fileIndex
      (s.dev + (s.stop - s.base))) :
    Placed (front ++ (planFrom g ((f, o) :: rest) s closed).flatMap (List.flatMap Segment.places)) := by
  induction rest generalizing f o filled s closed front with
  | nil =>
      rw [planFrom, List.flatMap_singleton, List.flatMap_append, List.flatMap_singleton,
        ← List.append_assoc]
      · exact h
      · simp
  | cons e rest ih =>
      obtain ⟨f', o'⟩ := e
      subst hf hs
      rcases hv with ⟨rfl, ho, hv⟩ | ⟨-, rfl, hv⟩
      · rw [planFrom, if_neg (by simp)]
        split
        · obtain ⟨hpush, hafter⟩ := h.push hle ho hnext
          exact ih hv rfl rfl (hle.trans ho) hpush hafter
        · have hbehind : Placed (front ++ closed.flatMap Segment.places ++ s.places
              ++ (Segment.opened g s.fileIndex s.stop 0).places) := (List.append_nil _).symm ▸ h
          obtain ⟨hpush, hafter⟩ := hbehind.push (Segment.opened_base_le _ _ _) ho
            (.inl (Segment.opened_aligned _ _ _))
          set front' := front ++ closed.flatMap Segment.places ++ s.places with hfront
          have hlap : front' ++ List.flatMap Segment.places [] = front' := List.append_nil _
          have hrest := @ih s.fileIndex o' true
            ((Segment.opened g s.fileIndex s.stop 0).push s.stop o') [] front' hv rfl rfl
            ((Segment.opened_base_le s.fileIndex s.stop 0).trans ho) (hlap.symm ▸ hpush) (hlap.symm ▸ hafter)
          rw [hfront] at hrest
          rw [List.flatMap_cons, List.flatMap_append, List.flatMap_singleton]
          simp only [List.append_assoc] at hrest ⊢
          exact hrest
      · rw [planFrom, if_pos (by omega)]
        have hclosed : front ++ (closed ++ [s]).flatMap Segment.places
              ++ (Segment.opened g (s.fileIndex + 1) o' (s.devStop g)).places
            = front ++ closed.flatMap Segment.places ++ s.places := by
          rw [List.flatMap_append, List.flatMap_singleton, ← List.append_assoc]
          exact List.append_nil _
        exact ih hv rfl rfl (Segment.opened_base_le _ _ _) (hclosed ▸ h)
          (.inl (Segment.opened_aligned _ _ _))

theorem plan_placed {offs : List (ℕ × ℕ)} (hv : ValidOffsets offs) :
    Placed ((settle g 0 (plan g offs)).tensors.map TensorMetadate.place) := by
  rw [map_settle_tensors fun _ _ _ => rfl]
  match offs, hv with
  | (f, o) :: rest, ⟨_, hv⟩ =>
      exact @planFrom_placed g rest f o false (Segment.opened g f o 0) [] [] hv rfl rfl
        (Segment.opened_base_le f o 0) .nil (.inl (Segment.opened_aligned f o 0))

end

/-! ## Element sizes -/

/-- Element sizes of the tensors, by their index: powers of two up to 16 that divide the sizes of
the tensors and do not increase within a file. -/
structure DtypeOrdered (tensors : List (ℕ × ℕ × ℕ)) (elementSize : ℕ → ℕ) : Prop where
  power : ∀ i < tensors.length, ∃ k ≤ 4, elementSize i = 2 ^ k
  whole : ∀ i t, tensors[i]? = some t → elementSize i ∣ t.2.2
  ordered : ∀ i j t u, i < j → tensors[i]? = some t → tensors[j]? = some u → t.1 = u.1 →
    elementSize j ≤ elementSize i

theorem two_pow_dvd_of_le {a b : ℕ} (ha : ∃ k ≤ 4, a = 2 ^ k) (hb : ∃ k ≤ 4, b = 2 ^ k)
    (h : a ≤ b) : a ∣ b := by
  obtain ⟨k, -, rfl⟩ := ha
  obtain ⟨k', -, rfl⟩ := hb
  exact Nat.pow_dvd_pow 2 ((Nat.pow_le_pow_iff_right (by decide)).mp h)

theorem two_pow_dvd_firstTensorAlignment {a : ℕ} (ha : ∃ k ≤ 4, a = 2 ^ k) :
    a ∣ firstTensorAlignment := by
  obtain ⟨k, hk, rfl⟩ := ha
  exact Nat.pow_dvd_pow 2 hk

theorem DtypeOrdered.dvd {tensors : List (ℕ × ℕ × ℕ)} {elementSize : ℕ → ℕ}
    (hd : DtypeOrdered tensors elementSize) {i j : ℕ} {t u : ℕ × ℕ × ℕ} (hij : i < j)
    (ht : tensors[i]? = some t) (hu : tensors[j]? = some u) (hfile : t.1 = u.1) :
    elementSize j ∣ elementSize i :=
  two_pow_dvd_of_le (hd.power j (List.getElem?_eq_some_iff.mp hu).1)
    (hd.power i (List.getElem?_eq_some_iff.mp ht).1) (hd.ordered i j t u hij ht hu hfile)

/-- A list of placed tensors is aligned to the element sizes, by induction from its front: what
divides the last tensor's address and size divides the address behind it. -/
theorem Placed.aligned {ps : List Place} (h : Placed ps) {rest : List (ℕ × ℕ × ℕ)}
    {elementSize : ℕ → ℕ} (hd : DtypeOrdered (ps.map Place.described ++ rest) elementSize) :
    ∀ i p, ps[i]? = some p → elementSize i ∣ p.deviceBufferOffset := by
  induction h generalizing rest with
  | nil => exact fun i p hp => by cases hp
  | @concat ps p h hfollows ih =>
      have hd' : DtypeOrdered (ps.map Place.described ++ (p.described :: rest)) elementSize := by
        rwa [List.map_append, List.append_assoc] at hd
      have hat : (ps.map Place.described ++ (p.described :: rest))[ps.length]?
          = some p.described := by
        rw [List.getElem?_append_right (by simp)]
        simp
      intro i q hq
      rcases lt_trichotomy i ps.length with hi | rfl | hi
      · rw [List.getElem?_append_left hi] at hq
        exact ih hd' i q hq
      · obtain rfl : p = q := by simpa using hq
        have hpower := hd'.power ps.length (List.getElem?_eq_some_iff.mp hat).1
        rcases hfollows with haligned | ⟨last, hlast, hfile, hbehind⟩
        · exact (two_pow_dvd_firstTensorAlignment hpower).trans haligned
        · rw [Option.mem_def, List.getLast?_eq_getElem?] at hlast
          have hlt : ps.length - 1 < ps.length := (List.getElem?_eq_some_iff.mp hlast).1
          have hbefore : (ps.map Place.described ++ (p.described :: rest))[ps.length - 1]?
              = some last.described := by
            rw [List.getElem?_append_left (by rwa [List.length_map]), List.getElem?_map, hlast]
            rfl
          have hchain := hd'.dvd hlt hbefore hat hfile
          rw [hbehind]
          exact Nat.dvd_add (hchain.trans (ih hd' _ last hlast))
            (hchain.trans (hd'.whole _ _ hbefore))
      · rw [List.getElem?_eq_none (by rw [List.length_append]; exact hi)] at hq
        cases hq

/-! ## Every layout that is computed -/

theorem placeTensor_room {g : Geometry} {f o o' : ℕ} {st st' : LayoutState}
    (h : placeTensor g f o o' st = .ok st') : o' - o ≤ g.bufferSize := by
  obtain ⟨_, -, h⟩ := bind_ok h
  split at h
  · cases h
  obtain ⟨tensorSize, hsize, h⟩ := bind_ok h
  split at h
  · cases h
  next hroom =>
    obtain ⟨-, rfl⟩ := sizeSub_ok hsize
    exact not_lt.mp hroom

/-- Without room for a tensor there is no layout. -/
theorem placeTensors_room {g : Geometry} {offs : List (ℕ × ℕ)} {st st' : LayoutState}
    (h : placeTensors g offs st = .ok st') : ∀ size ∈ tensorSizes offs, size ≤ g.bufferSize := by
  fun_induction placeTensors g offs st with
  | case1 st f o f' o' rest hne ih =>
      obtain ⟨_, -, h⟩ := bind_ok h
      obtain ⟨_, -, h⟩ := bind_ok h
      rw [tensorSizes, if_neg hne]
      exact ih _ h
  | case2 st f o f' o' rest hf ih =>
      obtain ⟨_, hplace, h⟩ := bind_ok h
      rw [tensorSizes, if_pos (not_not.mp hf)]
      intro size hsize
      rcases List.mem_cons.mp hsize with rfl | hsize
      · exact placeTensor_room hplace
      · exact ih _ h size hsize
  | case3 offs st hnot =>
      rcases offs with _ | ⟨⟨f, o⟩, _ | ⟨⟨f', o'⟩, rest⟩⟩
      · exact fun _ h => absurd h List.not_mem_nil
      · exact fun _ h => absurd h List.not_mem_nil
      · exact absurd rfl (hnot f o f' o' rest)

theorem computeLayout_ok {g : Geometry} (hg : g.WF) {offs : List (ℕ × ℕ)} (hv : ValidOffsets offs)
    {L : Layout} (h : computeLayout g offs = .ok L) : L = settle g 0 (plan g offs) := by
  have hroom : ∀ size ∈ tensorSizes offs, size ≤ g.bufferSize := by
    rw [computeLayout] at h
    split at h
    · obtain ⟨_, -, h⟩ := bind_ok h
      obtain ⟨_, -, h⟩ := bind_ok h
      obtain ⟨_, hplace, -⟩ := bind_ok h
      exact placeTensors_room hplace
    · cases h
  exact Except.ok.inj (h.symm.trans (computeLayout_eq_settle hg hv hroom))

/-- **Every tensor lands dtype-aligned**, in every layout `compute_layout` computes. -/
theorem tensors_dtype_aligned {pageSize : ℕ} {args : OpenArgs} {elementSize : ℕ → ℕ}
    (hpage : 0 < pageSize) (hadmitted : args.Admitted) (hv : ValidOffsets args.tensorOffsets)
    (hd : DtypeOrdered (describedTensors args.tensorOffsets) elementSize) {L : Layout}
    (hL : computeLayout (initBuffer pageSize args) args.tensorOffsets = .ok L) :
    ∀ i t, L.tensors[i]? = some t → elementSize i ∣ t.deviceBufferOffset := by
  have hg := initBuffer_wf hpage hadmitted
  have hsettle := computeLayout_ok hg hv hL
  have hplaced : Placed (L.tensors.map TensorMetadate.place) := hsettle ▸ plan_placed hv
  have hdescribed : (L.tensors.map TensorMetadate.place).map Place.described
      = describedTensors args.tensorOffsets := by
    rw [List.map_map, hsettle]
    exact settle_described hv
  have haligned := @Placed.aligned _ hplaced [] elementSize
    (by rw [hdescribed, List.append_nil]; exact hd)
  intro i t ht
  exact haligned i t.place (by rw [List.getElem?_map, ht]; rfl)

/-- Two tensors of four-byte elements and one of two-byte elements, which starts a lap; the
header of 100 bytes is no multiple of 16. -/
theorem twoLaps_dtype_aligned : ∃ L,
    computeLayout twoLaps.geometry twoLaps.args.tensorOffsets = .ok L ∧
      ∀ i t, L.tensors[i]? = some t → (if i < 2 then 4 else 2) ∣ t.deviceBufferOffset := by
  have hsizes : ∀ t ∈ describedTensors twoLaps.args.tensorOffsets, 4 ∣ t.2.2 := by decide
  refine ⟨_, twoLaps.computeLayout_eq, ?_⟩
  refine tensors_dtype_aligned twoLaps.page_pos twoLaps.admitted twoLaps.valid ⟨?_, ?_, ?_⟩
    twoLaps.computeLayout_eq
  · decide
  · intro i t ht
    refine Nat.dvd_trans ?_ (hsizes t (List.mem_of_getElem? ht))
    split <;> decide
  · intro i j t u hij _ _ _
    split <;> split <;> omega

end InstantTensor
