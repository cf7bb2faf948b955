/-
# `InstantTensor.Wraps` — where the layout returns to the start of the buffer

A lap ends with a segment that has no room for the next tensor, and that tensor is the first one
of the next lap (`Lap.Wraps`).  In between lies nothing but the padding of the lap's segments:
each opens within two units of alignment behind the one in front of it, and only the last one can
be without a tensor (`Lap.Dense`).
-/
import Mathlib.Data.List.Chain
import InstantTensor.Load

namespace InstantTensor

section
variable {g : Geometry}

/-- No space is lost in a lap but for padding. -/
structure Lap.Dense (g : Geometry) (lap : Lap) : Prop where
  filled : ∀ r ∈ lap.dropLast, r.extents ≠ []
  close : lap.IsChain fun r s => s.dev ≤ r.devStop g + 2 * firstTensorAlignment
  ends : ∀ s ∈ lap, ∀ e ∈ s.extents.getLast?, e.2 = s.stop

/-- `s` is out of room for the tensor up to `o'`, with which `s'` starts the next lap. -/
structure Segment.Wraps (g : Geometry) (s s' : Segment) (o' : ℕ) : Prop where
  le : s.stop ≤ o'
  full : g.bufferSize < (s.push s.stop o').devStop g
  base : s'.base = (Segment.opened g s.fileIndex s.stop 0).base
  dev : s'.dev = (Segment.opened g s.fileIndex s.stop 0).dev
  first : s'.extents.head? = some (s.stop, o')

def Lap.Wraps (g : Geometry) (lap next : Lap) : Prop :=
  ∃ closed s s' more o', lap = closed ++ [s] ∧ next = s' :: more ∧ s.Wraps g s' o'

/-! ## Laps are dense -/

theorem Lap.Dense.start (f o level : ℕ) : Lap.Dense g [Segment.opened g f o level] where
  filled := fun _ hr => absurd hr List.not_mem_nil
  close := .singleton _
  ends := by
    intro s hs e he
    rw [List.mem_singleton.mp hs] at he
    cases he

theorem Lap.Dense.open {closed : Lap} {s : Segment} (h : Lap.Dense g (closed ++ [s]))
    (hs : s.extents ≠ []) (f o : ℕ) :
    Lap.Dense g (closed ++ [s] ++ [Segment.opened g f o (s.devStop g)]) where
  filled := by
    intro r hr
    rw [List.dropLast_concat] at hr
    rcases List.mem_append.mp hr with hr | hr
    · exact h.filled r (by rwa [List.dropLast_concat])
    · exact List.mem_singleton.mp hr ▸ hs
  close := by
    refine List.isChain_append.mpr ⟨h.close, .singleton _, ?_⟩
    intro r hr s' hs'
    obtain rfl : s = r := by simpa using hr
    obtain rfl : Segment.opened g f o (s.devStop g) = s' := by simpa using hs'
    have hround := roundUp_lt (x := s.devStop g) (show 0 < firstTensorAlignment by decide)
    simp only [Segment.opened]
    omega
  ends := by
    intro r hr e he
    rcases List.mem_append.mp hr with hr | hr
    · exact h.ends r hr e he
    · rw [List.mem_singleton.mp hr] at he
      cases he

/-- What is asked of the last segment but for its place does not change with it. -/
theorem Lap.Dense.concat {closed : Lap} {s : Segment} (h : Lap.Dense g (closed ++ [s]))
    (o o' : ℕ) : Lap.Dense g (closed ++ [s.push o o']) where
  filled := by
    intro r hr
    rw [List.dropLast_concat] at hr
    exact h.filled r (by rwa [List.dropLast_concat])
  close := by
    obtain ⟨hclosed, -, hlast⟩ := List.isChain_append.mp h.close
    refine List.isChain_append.mpr ⟨hclosed, .singleton _, ?_⟩
    intro r hr s' hs'
    obtain rfl : s.push o o' = s' := by simpa using hs'
    exact hlast r hr s rfl
  ends := by
    intro r hr e he
    rcases List.mem_append.mp hr with hr | hr
    · exact h.ends r (List.mem_append_left _ hr) e he
    · rw [List.mem_singleton.mp hr, Segment.push, List.getLast?_concat] at he
      rw [List.mem_singleton.mp hr]
      cases he
      rfl

/-! ## Laps follow each other -/

/-- The segment a plan is started in is kept, up to tensors put behind it. -/
theorem planFrom_head (rest : List (ℕ × ℕ)) {f o : ℕ} (s : Segment) (closed : Lap) :
    ∃ s' more laps, planFrom g ((f, o) :: rest) s closed = (closed ++ s' :: more) :: laps ∧
      s'.base = s.base ∧ s'.dev = s.dev ∧ s.extents <+: s'.extents := by
  induction rest generalizing f o s closed with
  | nil => exact ⟨s, [], [], rfl, rfl, rfl, List.prefix_rfl⟩
  | cons e rest ih =>
      obtain ⟨f', o'⟩ := e
      rw [planFrom]
      split
      · obtain ⟨s', more, laps, heq, -⟩ :=
          ih (f := f') (o := o') (Segment.opened g f' o' (s.devStop g)) (closed ++ [s])
        refine ⟨s, s' :: more, laps, ?_, rfl, rfl, List.prefix_rfl⟩
        rw [heq, List.append_assoc]
        rfl
      · split
        · obtain ⟨s', more, laps, heq, hbase, hdev, hprefix⟩ := ih (f := f') (o := o') (s.push o o') closed
          exact ⟨s', more, laps, heq, hbase, hdev, (List.prefix_append _ _).trans hprefix⟩
        · exact ⟨s, [], _, rfl, rfl, rfl, List.prefix_rfl⟩

theorem planFrom_wraps (rest : List (ℕ × ℕ)) {f o : ℕ} {filled : Bool} {s : Segment} {closed : Lap}
    (hv : OffsetsFrom f o filled rest) (hf : s.fileIndex = f) (hs : s.stop = o)
    (hfilled : filled = true → s.extents ≠ []) (h : Lap.Dense g (closed ++ [s])) :
    (∀ lap ∈ planFrom g ((f, o) :: rest) s closed, Lap.Dense g lap) ∧
      (planFrom g ((f, o) :: rest) s closed).IsChain (Lap.Wraps g) := by
  induction rest generalizing f o filled s closed with
  | nil =>
      rw [planFrom]
      · exact ⟨fun lap hlap => List.mem_singleton.mp hlap ▸ h, .singleton _⟩
      · simp
  | cons e rest ih =>
      obtain ⟨f', o'⟩ := e
      subst hf hs
      rcases hv with ⟨rfl, ho, hv⟩ | ⟨hfull, rfl, hv⟩
      · rw [planFrom, if_neg (by simp)]
        split
        · exact ih hv rfl rfl (fun _ => by simp [Segment.push]) (h.concat _ _)
        · next hfits =>
          set start := (Segment.opened g s.fileIndex s.stop 0).push s.stop o' with hstart
          have hdense : Lap.Dense g ([] ++ [start]) :=
            @Lap.Dense.concat g [] _ (Lap.Dense.start s.fileIndex s.stop 0) _ _
          obtain ⟨hlaps, hchain⟩ := @ih s.fileIndex o' true start [] hv rfl rfl
            (fun _ => by simp [hstart, Segment.push]) hdense
          obtain ⟨s', more, laps, heq, hbase, hdev, hprefix⟩ :=
            planFrom_head (g := g) (f := s.fileIndex) (o := o') rest start []
          refine ⟨?_, List.isChain_cons.mpr ⟨?_, hchain⟩⟩
          · intro lap hlap
            rcases List.mem_cons.mp hlap with rfl | hlap
            · exact h
            · exact hlaps lap hlap
          · rw [heq]
            rintro lap ⟨⟩
            refine ⟨closed, s, s', more, o', rfl, rfl, ho, not_le.mp hfits, hbase, hdev, ?_⟩
            obtain ⟨behind, hextents⟩ := hprefix
            rw [← hextents]
            rfl
      · rw [planFrom, if_pos (by omega)]
        exact ih hv rfl rfl (fun h => absurd h (by simp)) (h.open (hfilled hfull) _ _)

theorem plan_wraps {offs : List (ℕ × ℕ)} (hv : ValidOffsets offs) :
    (∀ lap ∈ plan g offs, Lap.Dense g lap) ∧ (plan g offs).IsChain (Lap.Wraps g) := by
  match offs, hv with
  | (f, o) :: rest, ⟨_, hv⟩ =>
      exact planFrom_wraps rest hv rfl rfl (fun h => absurd h (by simp)) (Lap.Dense.start f o 0)

/-! ## How much room a wrap leaves -/

/-- The tensor that opens a lap ends less than a unit of each padding behind its own size. -/
theorem Segment.Wraps.devStop_lt (hg : g.WF) {s s' : Segment} {o' : ℕ} (h : s.Wraps g s' o')
    (hstop : s'.stop = o') : s'.devStop g < o' - s.stop
      + (firstTensorAlignment + g.threadAlignment + g.worldChunkAlignment) := by
  have hdev : s'.dev ≤ firstTensorAlignment := h.dev ▸ Segment.opened_zero_dev_le s.fileIndex s.stop
  have hlen : s.stop - s'.base = s.stop % g.threadAlignment :=
    h.base ▸ Segment.opened_len s.fileIndex s.stop 0
  have hpage : s.stop % g.threadAlignment < g.threadAlignment := Nat.mod_lt _ hg.thread_pos
  have hround := roundUp_lt (x := s'.len) hg.world_pos
  have hle := h.le
  simp only [Segment.devStop]
  simp only [Segment.len] at hround ⊢
  omega

/-- A lap ends at most the padding of two segments behind its last tensor. -/
theorem Lap.Dense.full_lt (hg : g.WF) {closed : Lap} {s r s' : Segment} {e : ℕ × ℕ} {o' : ℕ}
    (h : Lap.Dense g (closed ++ [s])) (hsound : Lap.Sound g (closed ++ [s]))
    (hwraps : s.Wraps g s' o') (hr : r.extents.getLast? = some e)
    (hlast : r = s ∨ s.extents = [] ∧ closed.getLast? = some r) :
    g.bufferSize < r.dev + (e.1 - r.base) + (e.2 - e.1) + (o' - s.stop)
      + (2 * firstTensorAlignment + g.threadAlignment + 2 * g.worldChunkAlignment) := by
  have hs := hsound.segment s (by simp)
  have hfull := hwraps.full
  have hround := roundUp_lt (x := (s.push s.stop o').len) hg.world_pos
  have hbase := hs.base_le
  have hle := hwraps.le
  simp only [Segment.devStop] at hfull
  simp only [Segment.len, Segment.push] at hround hfull
  rcases hlast with rfl | ⟨hnil, hlast⟩
  · have hend := h.ends r (by simp) e hr
    have hextent := hs.extents e (List.mem_of_getLast? hr)
    omega
  · have hmem : r ∈ closed := List.mem_of_getLast? hlast
    have hend := h.ends r (List.mem_append_left _ hmem) e hr
    have hextent := (hsound.segment r (List.mem_append_left _ hmem)).extents e (List.mem_of_getLast? hr)
    have hclose := (List.isChain_append.mp h.close).2.2 r hlast s rfl
    have hroundr := roundUp_lt (x := r.len) hg.world_pos
    have hheader := hs.header hnil
    simp only [Segment.devStop, Segment.len] at hclose hroundr hheader
    omega

end

end InstantTensor
