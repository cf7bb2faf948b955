/-
# `InstantTensor.Load` — the loads the frontend asks for, and their plans

A `Load` is a page size and the arguments of one `OPEN`, together with what the
frontend vouches for: positive sizes, tensor offsets read from well-formed files, a
buffer that holds the largest tensor.  For a load `compute_layout` returns, so a load has
a layout (`Load.layout`), and that layout is the settled plan (`Load.layout_eq`).

The rest of the module says what every plan looks like.  A lap is a list of segments
that climb through the buffer without touching, each segment starts at a page of its
file and lists its tensors in file order, and a segment fits in the buffer as soon as
it has a tensor — the capacity test sees to it, and at the start of the buffer the
padding of `init_buffer` does.
-/
import InstantTensor.Refine

namespace InstantTensor

/-! ## Loads -/

/-- An `OPEN` with what the frontend checks of it. -/
structure Load where
  pageSize : ℕ
  args : OpenArgs
  page_pos : 0 < pageSize
  admitted : args.Admitted
  valid : ValidOffsets args.tensorOffsets
  room : ∀ size ∈ tensorSizes args.tensorOffsets, size ≤ args.bufferSize

instance (args : OpenArgs) : Decidable args.Admitted :=
  decidable_of_iff (0 < args.chunkSize ∧ 0 < args.numThreads ∧ 0 < args.ioDepth ∧ 0 < args.worldSize)
    ⟨fun ⟨hc, hn, hd, hw⟩ => ⟨hc, hn, hd, hw⟩, fun ⟨hc, hn, hd, hw⟩ => ⟨hc, hn, hd, hw⟩⟩

/-- What makes an `OPEN` a load, as a test. -/
def OpenArgs.Loadable (pageSize : ℕ) (args : OpenArgs) : Prop :=
  0 < pageSize ∧ args.Admitted ∧ ValidOffsets args.tensorOffsets ∧
    ∀ size ∈ tensorSizes args.tensorOffsets, size ≤ args.bufferSize

instance (pageSize : ℕ) (args : OpenArgs) : Decidable (args.Loadable pageSize) :=
  inferInstanceAs (Decidable (_ ∧ _ ∧ _ ∧ _))

def Load.of (pageSize : ℕ) (args : OpenArgs) (h : args.Loadable pageSize) : Load where
  pageSize := pageSize
  args := args
  page_pos := h.1
  admitted := h.2.1
  valid := h.2.2.1
  room := h.2.2.2

namespace Load

def geometry (l : Load) : Geometry := initBuffer l.pageSize l.args

/-- What `compute_layout` leaves behind for the load. -/
def layout (l : Load) : Layout :=
  (computeLayout l.geometry l.args.tensorOffsets).toOption.getD { tensors := [], chunks := [] }

def plan (l : Load) : List Lap := InstantTensor.plan l.geometry l.args.tensorOffsets

theorem wf (l : Load) : l.geometry.WF := initBuffer_wf l.page_pos l.admitted

/-- A tensor and one unit of each kind of padding fit in the buffer. -/
theorem padded_room (l : Load) : ∀ size ∈ tensorSizes l.args.tensorOffsets,
    size + (firstTensorAlignment + l.geometry.threadAlignment + l.geometry.worldChunkAlignment)
      ≤ l.geometry.bufferSize := by
  intro size hsize
  have hroom := l.room size hsize
  have hpad := le_initBuffer_bufferSize l.pageSize l.args
  simp only [geometry]
  omega

theorem computeLayout_eq_plan (l : Load) :
    computeLayout l.geometry l.args.tensorOffsets = .ok (settle l.geometry 0 l.plan) :=
  computeLayout_eq_settle l.wf l.valid fun size hsize => by
    have := l.padded_room size hsize
    omega

theorem layout_eq (l : Load) : l.layout = settle l.geometry 0 l.plan := by
  rw [layout, l.computeLayout_eq_plan]
  rfl

/-- `compute_layout` returns on every load. -/
theorem computeLayout_eq (l : Load) :
    computeLayout l.geometry l.args.tensorOffsets = .ok l.layout := by
  rw [l.layout_eq, l.computeLayout_eq_plan]

end Load

section
variable {g : Geometry}

/-! ## What a segment is like -/

structure Segment.Sound (g : Geometry) (s : Segment) : Prop where
  base_dvd : g.threadAlignment ∣ s.base
  base_le : s.base ≤ s.stop
  extents : ∀ e ∈ s.extents, s.base ≤ e.1 ∧ e.1 ≤ e.2 ∧ e.2 ≤ s.stop
  sorted : s.extents.Pairwise fun e e' => e.2 ≤ e'.1
  /-- Without a tensor there is only the page remainder in front of the first one. -/
  header : s.extents = [] → s.len < g.threadAlignment
  fits : s.extents ≠ [] → s.devStop g ≤ g.bufferSize

/-- The segments of a lap climb through the buffer, their padding included. -/
structure Lap.Sound (g : Geometry) (lap : Lap) : Prop where
  segment : ∀ s ∈ lap, s.Sound g
  climb : lap.Pairwise fun s s' => s.devStop g < s'.dev

theorem Segment.Sound.opened (hg : g.WF) (f o level : ℕ) : (Segment.opened g f o level).Sound g where
  base_dvd := dvd_roundDown _ _
  base_le := Segment.opened_base_le f o level
  extents := fun _ he => absurd he List.not_mem_nil
  sorted := List.Pairwise.nil
  header := fun _ => by
    rw [Segment.opened_len]
    exact Nat.mod_lt _ hg.thread_pos
  fits := fun h => absurd rfl h

theorem Segment.Sound.push {s : Segment} (h : s.Sound g) {o' : ℕ} (ho : s.stop ≤ o')
    (hfits : (s.push s.stop o').devStop g ≤ g.bufferSize) : (s.push s.stop o').Sound g where
  base_dvd := h.base_dvd
  base_le := Nat.le_trans h.base_le ho
  extents := by
    intro e he
    rcases List.mem_append.mp he with he | he
    · obtain ⟨hbase, hle, hstop⟩ := h.extents e he
      exact ⟨hbase, hle, Nat.le_trans hstop ho⟩
    · rw [List.mem_singleton.mp he]
      exact ⟨h.base_le, ho, Nat.le_refl o'⟩
  sorted := by
    refine List.pairwise_append.mpr ⟨h.sorted, List.pairwise_singleton _ _, fun e he e' he' => ?_⟩
    rw [List.mem_singleton.mp he']
    exact (h.extents e he).2.2
  header := fun hnil => absurd hnil (by simp [Segment.push])
  fits := fun _ => hfits

/-- The device address at the start of the buffer is at most one unit of alignment. -/
theorem Segment.opened_zero_dev_le (f o : ℕ) :
    (Segment.opened g f o 0).dev ≤ firstTensorAlignment := by
  simp only [Segment.opened, roundUp_zero (show 0 < firstTensorAlignment by decide)]
  omega

/-- A tensor at the start of the buffer fits: the case the padding is for. -/
theorem Segment.opened_zero_push_fits (hg : g.WF) {f o o' : ℕ} (ho : o ≤ o')
    (hroom : o' - o + (firstTensorAlignment + g.threadAlignment + g.worldChunkAlignment)
      ≤ g.bufferSize) :
    ((Segment.opened g f o 0).push o o').devStop g ≤ g.bufferSize := by
  have hdev := Segment.opened_zero_dev_le (g := g) f o
  have hhead : (Segment.opened g f o 0).len < g.threadAlignment := by
    rw [Segment.opened_len]
    exact Nat.mod_lt _ hg.thread_pos
  have hlen : ((Segment.opened g f o 0).push o o').len
      = (Segment.opened g f o 0).len + (o' - o) := by
    have := Segment.opened_base_le (g := g) f o 0
    simp only [Segment.len, Segment.push, Segment.opened] at this ⊢
    omega
  have hround := roundUp_lt (x := (Segment.opened g f o 0).len + (o' - o)) hg.world_pos
  simp only [Segment.devStop, hlen]
  simp only [Segment.push]
  omega

theorem Lap.Sound.concat {lap : Lap} {s s' : Segment} (h : Lap.Sound g (lap ++ [s]))
    (hs' : s'.Sound g) (hdev : s'.dev = s.dev) : Lap.Sound g (lap ++ [s']) where
  segment := by
    intro r hr
    rcases List.mem_append.mp hr with hr | hr
    · exact h.segment r (List.mem_append_left _ hr)
    · exact List.mem_singleton.mp hr ▸ hs'
  climb := by
    obtain ⟨hlap, -, hlt⟩ := List.pairwise_append.mp h.climb
    refine List.pairwise_append.mpr ⟨hlap, List.pairwise_singleton _ _, fun r hr r' hr' => ?_⟩
    rw [List.mem_singleton.mp hr', hdev]
    exact hlt r hr s (List.mem_singleton.mpr rfl)

/-- A file switch opens the next segment behind all of the lap. -/
theorem Lap.Sound.open (hg : g.WF) {lap : Lap} {s : Segment} (h : Lap.Sound g (lap ++ [s]))
    (f o : ℕ) : Lap.Sound g (lap ++ [s] ++ [Segment.opened g f o (s.devStop g)]) where
  segment := by
    intro r hr
    rcases List.mem_append.mp hr with hr | hr
    · exact h.segment r hr
    · exact List.mem_singleton.mp hr ▸ Segment.Sound.opened hg f o _
  climb := by
    refine List.pairwise_append.mpr ⟨h.climb, List.pairwise_singleton _ _, fun r hr r' hr' => ?_⟩
    rw [List.mem_singleton.mp hr']
    have hopen := Segment.lt_opened_dev (g := g) f o (s.devStop g)
    rcases List.mem_append.mp hr with hr | hr
    · have hlt := (List.pairwise_append.mp h.climb).2.2 r hr s (List.mem_singleton.mpr rfl)
      have hpad : s.dev ≤ s.devStop g := Nat.le_add_right _ _
      omega
    · exact List.mem_singleton.mp hr ▸ hopen

theorem Lap.Sound.start {s : Segment} (hs : s.Sound g) : Lap.Sound g [s] where
  segment := fun _ hr => List.mem_singleton.mp hr ▸ hs
  climb := List.pairwise_singleton _ _

/-! ## What a plan is like -/

theorem planFrom_sound (hg : g.WF) (rest : List (ℕ × ℕ)) {f o : ℕ} {filled : Bool} {s : Segment}
    {closed : Lap} (hv : OffsetsFrom f o filled rest) (hs : s.stop = o)
    (h : Lap.Sound g (closed ++ [s]))
    (hroom : ∀ size ∈ tensorSizes ((f, o) :: rest),
      size + (firstTensorAlignment + g.threadAlignment + g.worldChunkAlignment) ≤ g.bufferSize) :
    ∀ lap ∈ planFrom g ((f, o) :: rest) s closed, Lap.Sound g lap := by
  induction rest generalizing f o filled s closed with
  | nil =>
      intro lap hlap
      simp only [planFrom, List.mem_singleton] at hlap
      exact hlap ▸ h
  | cons e rest ih =>
      obtain ⟨f', o'⟩ := e
      subst hs
      rcases hv with ⟨rfl, ho, hv⟩ | ⟨-, rfl, hv⟩
      · rw [tensorSizes, if_pos rfl] at hroom
        have hsize := hroom _ List.mem_cons_self
        have hrest := fun size hm => hroom size (List.mem_cons_of_mem _ hm)
        rw [planFrom, if_neg (by simp)]
        split
        · next hfits =>
          have hpush := (h.segment s (by simp)).push ho hfits
          exact ih hv rfl (h.concat hpush rfl) hrest
        · have hfits := Segment.opened_zero_push_fits (f := f') hg ho hsize
          have hpush := (Segment.Sound.opened hg f' s.stop 0).push
            (show (Segment.opened g f' s.stop 0).stop ≤ o' from ho) hfits
          intro lap hlap
          rcases List.mem_cons.mp hlap with rfl | hlap
          · exact h
          · exact ih hv rfl (Lap.Sound.start hpush) hrest lap hlap
      · rw [tensorSizes, if_neg (by omega)] at hroom
        rw [planFrom, if_pos (by omega)]
        exact ih hv rfl (h.open hg (f + 1) o') hroom

/-- The last lap ends in a segment with a tensor. -/
theorem planFrom_last (rest : List (ℕ × ℕ)) {f o : ℕ} {filled : Bool} {s : Segment} {closed : Lap}
    (hv : OffsetsFrom f o filled rest) (hs : filled = true → s.extents ≠ []) :
    ∃ laps lap last, planFrom g ((f, o) :: rest) s closed = laps ++ [lap ++ [last]] ∧
      last.extents ≠ [] := by
  induction rest generalizing f o filled s closed with
  | nil => exact ⟨[], closed, s, rfl, hs hv⟩
  | cons e rest ih =>
      obtain ⟨f', o'⟩ := e
      rcases hv with ⟨rfl, -, hv⟩ | ⟨-, rfl, hv⟩
      · rw [planFrom, if_neg (by simp)]
        split
        · exact ih hv fun _ => by simp [Segment.push]
        · obtain ⟨laps, lap, last, heq, hne⟩ :=
            @ih f' o' _ ((Segment.opened g f' o 0).push o o') [] hv
              fun _ => by simp [Segment.push]
          exact ⟨(closed ++ [s]) :: laps, lap, last, by rw [heq]; rfl, hne⟩
      · rw [planFrom, if_pos (by omega)]
        exact ih hv fun h => absurd h (by simp)

theorem plan_sound (hg : g.WF) {offs : List (ℕ × ℕ)} (hv : ValidOffsets offs)
    (hroom : ∀ size ∈ tensorSizes offs,
      size + (firstTensorAlignment + g.threadAlignment + g.worldChunkAlignment) ≤ g.bufferSize) :
    ∀ lap ∈ plan g offs, Lap.Sound g lap := by
  match offs, hv with
  | (f, o) :: rest, ⟨_, hv⟩ =>
      exact planFrom_sound hg rest hv rfl
        (Lap.Sound.start (Segment.Sound.opened hg f o 0)) hroom

theorem plan_last {offs : List (ℕ × ℕ)} (hv : ValidOffsets offs) :
    ∃ laps lap last, plan g offs = laps ++ [lap ++ [last]] ∧ last.extents ≠ [] := by
  match offs, hv with
  | (f, o) :: rest, ⟨_, hv⟩ => exact planFrom_last rest hv fun h => absurd h (by simp)

end

theorem Load.plan_sound (l : Load) : ∀ lap ∈ l.plan, Lap.Sound l.geometry lap :=
  InstantTensor.plan_sound l.wf l.valid l.padded_room

/-! ## A small load -/

/-- One file with a header of 100 bytes and three tensors of 20000: two of them fit in the
buffer, the third one starts a second lap. -/
def twoLaps : Load := Load.of 4096 {
    rank := 0
    worldSize := 1
    bufferSize := 20000
    chunkSize := 4096
    numThreads := 1
    ioDepth := 2
    backend := .CUFILE
    tensorOffsets := [(0, 100), (0, 20100), (0, 40100), (0, 60100)] } (by decide)

end InstantTensor
