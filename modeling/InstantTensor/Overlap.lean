/-
# `InstantTensor.Overlap` — loading a tensor while the one before it is in use

The frontend counts tensor `i + 1` as overlapped with tensor `i` where the buffer holds the
first once and the second twice, and the padding of `init_buffer` is to make up for what the layout
loses.  It does where the chunks that end the two tensors are their own (`Lap.Wraps.clear`).
But the chunk that ends the first tensor of a lap is filled up to `world_chunk_size` with the
tensors behind it, and then reaches over tensor `i`; and an empty tensor at the end of a lap
waits for a chunk of the next one.  `overlap_delivered_iff` says which pairs these are.
-/
import InstantTensor.Contents
import InstantTensor.Requests
import InstantTensor.Wraps

namespace InstantTensor

/-! ## The tensors of a plan, with their sites -/

/-- The tensors of the rest of a lap, behind `lapBefore`. -/
def placedIn (before after : List Lap) : Lap → Lap → List (Site × (ℕ × ℕ))
  | _, [] => []
  | lapBefore, s :: lap =>
      s.extents.map (fun e => (⟨before, lapBefore, s, lap, after⟩, e))
        ++ placedIn before after (lapBefore ++ [s]) lap

def placedFrom : List Lap → List Lap → List (Site × (ℕ × ℕ))
  | _, [] => []
  | before, lap :: laps => placedIn before laps [] lap ++ placedFrom (before ++ [lap]) laps

def Site.lap (σ : Site) : Lap := σ.lapBefore ++ σ.seg :: σ.lapAfter

section
variable {g : Geometry}

theorem map_placedIn (before after : List Lap) (lapBefore lap : Lap) {n : ℕ}
    (hn : n = (before.flatMap (Lap.chunks g)).length + (lapBefore.chunks g).length) :
    (placedIn before after lapBefore lap).map (fun p => p.1.tensor g 0 p.2)
      = (lap.tensors g n).map (TensorMetadate.settle g (n + (lap.chunks g).length)
          (Lap.chunks g (after.headD []))) := by
  induction lap generalizing lapBefore n with
  | nil => rfl
  | cons s lap ih =>
      have hnext := ih (lapBefore ++ [s]) (n := n + (s.chunks g).length) (by
        rw [Lap.chunks_append, Lap.chunks_singleton, List.length_append]
        omega)
      rw [placedIn, List.map_append, List.map_map, hnext, Lap.tensors, List.map_append,
        Segment.tensors_eq, List.map_map, Lap.chunks_cons, List.length_append, Nat.add_assoc]
      refine congrArg (· ++ _) (List.map_congr_left fun e _ => ?_)
      simp only [Function.comp_apply, Site.tensor, Site.first, Site.next, Site.nextChunks,
        Nat.zero_add, hn, Nat.add_assoc]

theorem map_placedFrom (before laps : List Lap) :
    (placedFrom before laps).map (fun p => p.1.tensor g 0 p.2)
      = (settle g (before.flatMap (Lap.chunks g)).length laps).tensors := by
  induction laps generalizing before with
  | nil => rfl
  | cons lap laps ih =>
      rw [placedFrom, List.map_append, ih, settle, map_placedIn before laps [] lap rfl,
        List.flatMap_append, List.flatMap_singleton, List.length_append]
      rfl

/-! ## Neighbours -/

/-- Two neighbours of a plan are tensors of one lap, or the last tensor of a lap and the first one
of the next. -/
structure Site.Wraps (σ σ' : Site) (e e' : ℕ × ℕ) : Prop where
  after : σ.after = σ'.lap :: σ'.after
  before : σ'.before = σ.before ++ [σ.lap]
  lapBefore : σ'.lapBefore = []
  last : σ.seg.extents.getLast? = some e
  rest : ∀ s ∈ σ.lapAfter, s.extents = []
  first : σ'.seg.extents.head? = some e'

def Neighbours (p p' : Site × (ℕ × ℕ)) : Prop :=
  (p'.1.before = p.1.before ∧ p'.1.lap = p.1.lap ∧ p'.1.after = p.1.after) ∨
    p.1.Wraps p'.1 p.2 p'.2

theorem mem_placedIn {before after : List Lap} {lapBefore lap : Lap} {p : Site × (ℕ × ℕ)}
    (hp : p ∈ placedIn before after lapBefore lap) : p.1.before = before ∧
      p.1.lap = lapBefore ++ lap ∧ p.1.after = after ∧ p.2 ∈ p.1.seg.extents := by
  induction lap generalizing lapBefore with
  | nil => cases hp
  | cons s lap ih =>
      rcases List.mem_append.mp hp with hp | hp
      · obtain ⟨e, he, rfl⟩ := List.mem_map.mp hp
        exact ⟨rfl, rfl, rfl, he⟩
      · obtain ⟨hbefore, hlap, hrest⟩ := ih hp
        exact ⟨hbefore, hlap.trans (List.append_cons lapBefore s lap).symm, hrest⟩

theorem mem_placedFrom {before laps : List Lap} {p : Site × (ℕ × ℕ)}
    (hp : p ∈ placedFrom before laps) : p.1.laps = before ++ laps ∧ p.2 ∈ p.1.seg.extents := by
  induction laps generalizing before with
  | nil => cases hp
  | cons lap laps ih =>
      rcases List.mem_append.mp hp with hp | hp
      · obtain ⟨hbefore, hlap, hafter, he⟩ := mem_placedIn hp
        refine ⟨?_, he⟩
        show p.1.before ++ p.1.lap :: p.1.after = _
        rw [hbefore, hlap, hafter]
        rfl
      · obtain ⟨hlaps, he⟩ := ih hp
        exact ⟨hlaps.trans (List.append_cons before lap laps).symm, he⟩

theorem placedIn_eq_nil {before after : List Lap} {lapBefore lap : Lap}
    (h : placedIn before after lapBefore lap = []) : ∀ s ∈ lap, s.extents = [] := by
  induction lap generalizing lapBefore with
  | nil => exact fun _ hs => absurd hs List.not_mem_nil
  | cons s lap ih =>
      obtain ⟨hself, hrest⟩ := List.append_eq_nil_iff.mp h
      exact List.forall_mem_cons.mpr ⟨List.map_eq_nil_iff.mp hself, ih hrest⟩

/-- Behind the last tensor of a lap no segment has one. -/
theorem getLast_placedIn {before after : List Lap} {lapBefore lap : Lap} {p : Site × (ℕ × ℕ)}
    (hp : p ∈ (placedIn before after lapBefore lap).getLast?) :
    p.1.seg.extents.getLast? = some p.2 ∧ ∀ s ∈ p.1.lapAfter, s.extents = [] := by
  induction lap generalizing lapBefore with
  | nil => cases hp
  | cons s lap ih =>
      rw [placedIn, List.getLast?_append] at hp
      cases hrest : (placedIn before after (lapBefore ++ [s]) lap).getLast? with
      | some q =>
          rw [hrest] at hp
          cases hp
          exact ih hrest
      | none =>
          rw [hrest, Option.none_or, List.getLast?_map] at hp
          obtain ⟨e, he, rfl⟩ := Option.map_eq_some_iff.mp hp
          exact ⟨he, placedIn_eq_nil (List.getLast?_eq_none_iff.mp hrest)⟩

/-- Tensors next to each other in a plan are neighbours. -/
theorem placedFrom_neighbours {before laps : List Lap} (h : laps.IsChain (Lap.Wraps g)) :
    (placedFrom before laps).IsChain Neighbours := by
  induction laps generalizing before with
  | nil => exact .nil
  | cons lap laps ih =>
      obtain ⟨hnext, hlaps⟩ := List.isChain_cons.mp h
      refine List.isChain_append.mpr ⟨?_, ih hlaps, ?_⟩
      · refine List.Pairwise.isChain (List.pairwise_of_forall_mem_list fun p hp p' hp' => ?_)
        obtain ⟨hbefore, hlap, hafter, -⟩ := mem_placedIn hp
        obtain ⟨hbefore', hlap', hafter', -⟩ := mem_placedIn hp'
        exact .inl ⟨hbefore'.trans hbefore.symm, hlap'.trans hlap.symm, hafter'.trans hafter.symm⟩
      · intro p hp p' hp'
        obtain ⟨hbefore, hlap, hafter, -⟩ := mem_placedIn (List.mem_of_getLast? hp)
        obtain ⟨hlast, hrest⟩ := getLast_placedIn hp
        cases laps with
        | nil => cases hp'
        | cons next laps =>
            obtain ⟨closed, s, s', more, o', -, rfl, hwraps⟩ := hnext next rfl
            rw [placedFrom, placedIn, List.head?_append, List.head?_append, List.head?_map,
              hwraps.first] at hp'
            cases hp'
            exact .inr ⟨hafter, by rw [hbefore, hlap]; rfl, rfl, hlast, hrest, hwraps.first⟩

/-! ## Prefetching into the next lap -/

/-- The chunks of a lap end one behind the other. -/
theorem Lap.Sound.chunks_sorted (hg : g.WF) {lap : Lap} (h : Lap.Sound g lap) :
    (lap.chunks g).Pairwise fun c c' => c.devStop g ≤ c'.devStop g := by
  induction lap with
  | nil => exact List.Pairwise.nil
  | cons s lap ih =>
      obtain ⟨hclimb, htail⟩ := List.pairwise_cons.mp h.climb
      rw [Lap.chunks_cons]
      refine List.pairwise_append.mpr ⟨?_, ih ⟨fun r hr => h.segment r (by simp [hr]), htail⟩, ?_⟩
      · refine List.pairwise_map.mpr (List.pairwise_lt_range.imp_of_mem ?_)
        intro q q' _ hq' hlt
        rw [List.mem_range, lt_divCeil_iff hg.chunk_pos] at hq'
        have hmul : (q + 1) * g.worldChunkSize ≤ q' * g.worldChunkSize :=
          Nat.mul_le_mul_right _ hlt
        have hfull : min g.worldChunkSize (s.len - q * g.worldChunkSize) = g.worldChunkSize := by
          rw [Nat.succ_mul] at hmul
          omega
        simp only [Chunk.devStop, Segment.chunk, Segment.full]
        rw [hfull, roundUp_of_dvd hg.world_pos hg.world_dvd]
        rw [Nat.succ_mul] at hmul
        omega
      · intro c hc c' hc'
        obtain ⟨q, hq, rfl⟩ := (Segment.mem_chunks hg).mp hc
        obtain ⟨r, hr, hc'⟩ := List.mem_flatMap.mp hc'
        have hle := Segment.chunk_devStop_le hg hq
        have hbehind := hclimb r hr
        have hdev := Segment.le_chunk_dev hg hc'
        simp only [Chunk.devStop] at hle ⊢
        omega

/-- A tensor's prefetch limit is at chunk `q` of the next lap, or behind it, if that chunk ends at
or below the tensor. -/
theorem Site.next_add_le_prefetch (hg : g.WF) {σ : Site}
    (hnext : Lap.Sound g (σ.after.headD [])) (e : ℕ × ℕ) (q : ℕ) :
    ((σ.next g + q : ℕ) : ℤ) ≤ (σ.tensor g 0 e).prefetchChunkId ↔
      ∃ c, (σ.nextChunks g)[q]? = some c ∧ c.devStop g ≤ σ.seg.dev + (e.1 - σ.seg.base) := by
  have hmono : (σ.nextChunks g).Pairwise fun c c' =>
      decide (c'.devStop g ≤ σ.seg.dev + (e.1 - σ.seg.base)) = true →
        decide (c.devStop g ≤ σ.seg.dev + (e.1 - σ.seg.base)) = true := by
    refine (hnext.chunks_sorted hg).imp fun hle htest => ?_
    exact decide_eq_true (hle.trans (of_decide_eq_true htest))
  have hlength := lt_length_takeWhile_iff hmono (q := q)
  simp only [decide_eq_true_eq] at hlength
  rw [← hlength]
  simp only [Site.tensor, TensorMetadate.settle, Segment.entry, Nat.zero_add]
  omega

theorem Site.next_sound {σ : Site} (h : ∀ lap ∈ σ.laps, Lap.Sound g lap) :
    Lap.Sound g (σ.after.headD []) := by
  cases hafter : σ.after with
  | nil => exact ⟨fun _ hs => absurd hs List.not_mem_nil, List.Pairwise.nil⟩
  | cons next after =>
      refine h next (List.mem_append_right _ (List.mem_cons_of_mem _ ?_))
      rw [hafter]
      exact List.mem_cons_self

theorem Site.next_eq (σ : Site) : σ.next g
    = (σ.before.flatMap (Lap.chunks g)).length + (σ.lap.chunks g).length := by
  rw [Site.next, Site.first, Site.lap, Lap.chunks_append, Lap.chunks_cons, List.length_append,
    List.length_append]
  omega

theorem Site.last_eq (σ : Site) (e : ℕ × ℕ) : (σ.tensor g 0 e).lastChunkId
    = (σ.first g + (e.2 - σ.seg.base - 1) / g.worldChunkSize : ℕ) := by
  simp only [Site.tensor, TensorMetadate.settle, Segment.entry, Nat.zero_add]

end

/-! ## Which pairs overlap -/

section
variable (g : Geometry)

/-- The chunk that ends the second of two neighbours is not the last one of its own bytes: it has
none and waits for what comes behind, or it starts a lap and the chunk goes on behind it. -/
def Shared (p p' : Site × (ℕ × ℕ)) : Prop :=
  (p'.1.seg.len = 0 ∧ (p'.1.before = p.1.before → p'.1.lapAfter.chunks g = [])) ∨
    (p'.1.before ≠ p.1.before ∧ p'.2.2 < p'.1.seg.stop)

/-- In the lap behind the first of two neighbours, the chunk that ends the second one is there and
ends at or below the first one. -/
def EndsBelow (p p' : Site × (ℕ × ℕ)) : Prop :=
  ∃ c, (p.1.nextChunks g)[(p'.2.2 - p'.1.seg.base - 1) / g.worldChunkSize]? = some c ∧
    c.devStop g ≤ p.1.seg.dev + (p.2.1 - p.1.seg.base)

/-- The frontend counts the second tensor as overlapped with the first. -/
def Counted (bufferSize : ℕ) (p p' : Site × (ℕ × ℕ)) : Prop :=
  p.2.2 - p.2.1 + 2 * (p'.2.2 - p'.2.1) ≤ bufferSize

/-- A shared chunk that ends a counted tensor does not reach the tensor in front. -/
def SharedChunksClear (bufferSize : ℕ) (laps : List Lap) : Prop :=
  (placedFrom [] laps).IsChain fun p p' =>
    Counted bufferSize p p' → Shared g p p' → EndsBelow g p p'

end

section
variable {g : Geometry} {laps : List Lap} {p p' : Site × (ℕ × ℕ)}

/-- Within a lap only an empty tensor at its end waits for the next lap. -/
theorem last_le_prefetch_same (hg : g.WF) (hsound : ∀ lap ∈ p.1.laps, Lap.Sound g lap)
    (he' : p'.2 ∈ p'.1.seg.extents) (hbefore : p'.1.before = p.1.before)
    (hlap : p'.1.lap = p.1.lap) (hafter : p'.1.after = p.1.after) :
    (p'.1.tensor g 0 p'.2).lastChunkId ≤ (p.1.tensor g 0 p.2).prefetchChunkId ↔
      (Shared g p p' → EndsBelow g p p') := by
  obtain ⟨σ, e⟩ := p
  obtain ⟨σ', e'⟩ := p'
  have hseg : σ'.seg.Sound g :=
    (hsound σ.lap σ.mem_plan).segment σ'.seg (hlap ▸ List.mem_append_right _ List.mem_cons_self)
  obtain ⟨hbase, hle, hstop⟩ := hseg.extents e' he'
  have hnext : σ'.next g = σ.next g := by
    simp only at hbefore hlap
    rw [Site.next_eq, Site.next_eq, hbefore, hlap]
  rw [Site.last_eq]
  by_cases htail : σ'.seg.len = 0 ∧ σ'.lapAfter.chunks g = []
  · have hpiece : (e'.2 - σ'.seg.base - 1) / g.worldChunkSize = 0 := by
      have hzero : e'.2 - σ'.seg.base - 1 = 0 := by
        have hlen := htail.1
        unfold Segment.len at hlen
        omega
      rw [hzero, Nat.zero_div]
    have hfirst : σ'.first g = σ.next g := by
      rw [← hnext, Site.next, Segment.chunks_of_len_zero hg htail.1, htail.2]
      rfl
    have hends := Site.next_add_le_prefetch hg (Site.next_sound hsound) e 0
    rw [hpiece, hfirst, hends, ← hpiece]
    exact ⟨fun h _ => h, fun h => h (.inl ⟨htail.1, fun _ => htail.2⟩)⟩
  · have hlt := Site.last_lt_next hg hstop (not_and_or.mp htail)
    have hlow := σ.next_le_prefetch (g := g) e
    refine iff_of_true ?_ ?_
    · simp only
      omega
    · rintro (⟨hlen, hchunks⟩ | ⟨hne, -⟩)
      · exact absurd ⟨hlen, hchunks hbefore⟩ htail
      · exact absurd hbefore hne

theorem Site.Wraps.first_eq {σ σ' : Site} {e e' : ℕ × ℕ} (h : σ.Wraps σ' e e') :
    σ'.first g = σ.next g := by
  rw [Site.first, h.before, h.lapBefore, List.flatMap_append, List.flatMap_singleton,
    List.length_append, Site.next_eq]
  rfl

theorem Site.Wraps.laps_eq {σ σ' : Site} {e e' : ℕ × ℕ} (h : σ.Wraps σ' e e') :
    σ.laps = σ.before ++ σ.lap :: σ'.lap :: σ'.after := by
  rw [← h.after]
  rfl

/-- The last tensor of a lap is in its last segment, or in the one before that if a file was just
opened. -/
theorem Site.Wraps.last_seg {σ σ' : Site} {e e' : ℕ × ℕ} (h : σ.Wraps σ' e e') {closed : Lap}
    {s : Segment} (hdense : Lap.Dense g (closed ++ [s])) (hlap : σ.lap = closed ++ [s]) :
    σ.seg = s ∨ s.extents = [] ∧ closed.getLast? = some σ.seg := by
  rw [Site.lap] at hlap
  rcases List.eq_nil_or_concat σ.lapAfter with hnil | ⟨after, r, hconcat⟩
  · rw [hnil] at hlap
    exact .inl (List.cons.inj (List.append_inj' hlap rfl).2).1
  · rw [List.concat_eq_append] at hconcat
    rw [hconcat, ← List.cons_append, ← List.append_assoc] at hlap
    obtain ⟨hclosed, hr⟩ := List.append_inj' hlap rfl
    obtain rfl := (List.cons.inj hr).1
    have hinit : after = [] := by
      cases after with
      | nil => rfl
      | cons a after =>
          have ha : a ∈ (closed ++ [r]).dropLast := by
            rw [List.dropLast_concat, ← hclosed]
            simp
          exact absurd (h.rest a (by simp [hconcat])) (hdense.filled a ha)
    refine .inr ⟨h.rest r (by simp [hconcat]), ?_⟩
    rw [← hclosed, hinit, List.getLast?_concat]

/-- The padding makes room for what opens a lap. -/
theorem Site.Wraps.clear (hg : g.WF) {σ σ' : Site} {e e' : ℕ × ℕ} (h : σ.Wraps σ' e e')
    (hsound : ∀ lap ∈ σ.laps, Lap.Sound g lap) (hdense : ∀ lap ∈ σ.laps, Lap.Dense g lap)
    (hchain : σ.laps.IsChain (Lap.Wraps g)) (hroom : e.2 - e.1 + 2 * (e'.2 - e'.1)
      + 3 * (firstTensorAlignment + g.threadAlignment + g.worldChunkAlignment) ≤ g.bufferSize)
    (hown : σ'.seg.stop = e'.2) :
    σ'.seg.devStop g ≤ σ.seg.dev + (e.1 - σ.seg.base) := by
  have hlaps := h.laps_eq
  rw [hlaps] at hchain
  obtain ⟨closed, s, s', more, o', hlap, hnext, hwraps⟩ :=
    (List.isChain_cons_cons.mp (List.isChain_append.mp hchain).2.1).1
  have hmem : σ.lap ∈ σ.laps := σ.mem_plan
  obtain rfl : σ'.seg = s' := by
    rw [Site.lap, h.lapBefore] at hnext
    exact (List.cons.inj hnext).1
  obtain rfl : e' = (s.stop, o') := Option.some.inj (h.first.symm.trans hwraps.first)
  have hlow := hwraps.devStop_lt hg hown
  have hfull := (hlap ▸ hdense _ hmem).full_lt hg (hlap ▸ hsound _ hmem) hwraps h.last
    (h.last_seg (hlap ▸ hdense _ hmem) hlap)
  simp only at hroom
  omega

/-- The chunks of the segment that opens a lap come first. -/
theorem Site.Wraps.nextChunk (hg : g.WF) {σ σ' : Site} {e e' : ℕ × ℕ} (h : σ.Wraps σ' e e') {q : ℕ}
    (hq : q * g.worldChunkSize < σ'.seg.len) :
    (σ.nextChunks g)[q]? = some (σ'.seg.chunk g q) := by
  have hlt : q < divCeil σ'.seg.len g.worldChunkSize := (lt_divCeil_iff hg.chunk_pos).mpr hq
  have hchunks : σ.nextChunks g = σ'.seg.chunks g ++ σ'.lapAfter.chunks g := by
    rw [Site.nextChunks, h.after, List.headD_cons, Site.lap, h.lapBefore, List.nil_append,
      Lap.chunks_cons]
  rw [hchunks, List.getElem?_append_left (Segment.chunks_length (g := g) _ ▸ hlt), Segment.chunks,
    List.getElem?_map, List.getElem?_range hlt]
  rfl

/-- The last byte of a segment is in its last piece. -/
theorem Segment.last_piece (s : Segment) {e : ℕ × ℕ} (hlen : s.len ≠ 0) (hstop : s.stop = e.2) :
    (e.2 - s.base - 1) / g.worldChunkSize * g.worldChunkSize < s.len := by
  have hle := Nat.div_mul_le_self (e.2 - s.base - 1) g.worldChunkSize
  unfold Segment.len at hlen ⊢
  omega

/-- Across a wrap the padding makes room for a chunk that is not shared. -/
theorem last_le_prefetch_wraps (hg : g.WF) (hsound : ∀ lap ∈ p.1.laps, Lap.Sound g lap)
    (hdense : ∀ lap ∈ p.1.laps, Lap.Dense g lap) (hchain : p.1.laps.IsChain (Lap.Wraps g))
    {bufferSize : ℕ} (hroom : bufferSize + 3 * (firstTensorAlignment + g.threadAlignment
      + g.worldChunkAlignment) ≤ g.bufferSize)
    (hcounted : Counted bufferSize p p') (hwraps : p.1.Wraps p'.1 p.2 p'.2) :
    (p'.1.tensor g 0 p'.2).lastChunkId ≤ (p.1.tensor g 0 p.2).prefetchChunkId ↔
      (Shared g p p' → EndsBelow g p p') := by
  obtain ⟨σ, e⟩ := p
  obtain ⟨σ', e'⟩ := p'
  have hfirst := hwraps.first_eq (g := g)
  have hends := Site.next_add_le_prefetch hg (Site.next_sound hsound) e
    ((e'.2 - σ'.seg.base - 1) / g.worldChunkSize)
  rw [Site.last_eq]
  simp only [hfirst]
  rw [hends]
  refine ⟨fun h _ => h, fun h => ?_⟩
  by_cases hshared : Shared g (σ, e) (σ', e')
  · exact h hshared
  · obtain ⟨hempty, hown⟩ := not_or.mp hshared
    have hne : σ'.before ≠ σ.before := by
      rw [hwraps.before]
      simp
    have hlen : σ'.seg.len ≠ 0 := fun hzero => hempty ⟨hzero, fun heq => absurd heq hne⟩
    have hmem : σ'.lap ∈ σ.laps := by
      rw [hwraps.laps_eq]
      simp
    have hseg := (hsound _ hmem).segment σ'.seg (List.mem_append_right _ List.mem_cons_self)
    have hextent := hseg.extents e' (List.mem_of_mem_head? hwraps.first)
    have hstop : σ'.seg.stop = e'.2 :=
      le_antisymm (not_lt.mp fun hlt => hown ⟨hne, hlt⟩) hextent.2.2
    have hpiece := σ'.seg.last_piece (g := g) hlen hstop
    exact ⟨σ'.seg.chunk g _, hwraps.nextChunk hg hpiece, (Segment.chunk_devStop_le hg hpiece).trans
      (hwraps.clear hg hsound hdense hchain ((Nat.add_le_add_right hcounted _).trans hroom) hstop)⟩

end

/-- While a tensor is in use, the next one can be loaded, if the frontend counts the two as
overlapped. -/
def Load.OverlapDelivered (l : Load) : Prop :=
  l.layout.tensors.IsChain fun t u =>
    t.size + 2 * u.size ≤ l.args.bufferSize → u.lastChunkId ≤ t.prefetchChunkId

/-- **The overlap is delivered exactly if no shared chunk reaches over the tensor in front.** -/
theorem Load.overlap_delivered_iff (l : Load) :
    l.OverlapDelivered ↔ SharedChunksClear l.geometry l.args.bufferSize l.plan := by
  have hg := l.wf
  obtain ⟨hdense, hchain⟩ := plan_wraps (g := l.geometry) l.valid
  have htensors : l.layout.tensors
      = (placedFrom [] l.plan).map fun p => p.1.tensor l.geometry 0 p.2 := by
    rw [l.layout_eq, map_placedFrom]
    rfl
  rw [Load.OverlapDelivered, htensors, List.isChain_map]
  refine isChain_congr (placedFrom_neighbours hchain) fun p hp p' hp' hneighbours => ?_
  obtain ⟨hlaps, he⟩ := mem_placedFrom hp
  obtain ⟨hlaps', he'⟩ := mem_placedFrom hp'
  rw [List.nil_append] at hlaps hlaps'
  refine imp_congr_right fun hcounted => ?_
  rcases hneighbours with ⟨hbefore, hlap, hafter⟩ | hwraps
  · exact last_le_prefetch_same hg (hlaps ▸ l.plan_sound) he' hbefore hlap hafter
  · exact last_le_prefetch_wraps hg (hlaps ▸ l.plan_sound) (hlaps ▸ hdense) (hlaps ▸ hchain)
      (le_initBuffer_bufferSize _ _) hcounted hwraps

/-- Five tensors and the buffer size recommended for them.  The third one starts a lap, and the
fifth chunk of that lap, which ends it, goes on with the last two tensors. -/
def sharedChunk : Load := Load.of 4096 {
    rank := 0
    worldSize := 1
    bufferSize := 271000
    chunkSize := 32768
    numThreads := 1
    ioDepth := 3
    backend := .URING
    tensorOffsets := [(0, 100), (0, 160100), (0, 161100), (0, 296100), (0, 297100), (0, 395100)] }
  (by decide)

/-- The third tensor is counted as overlapped with the second, and ends in chunk 9; while the
second one is in use, chunk 8 is the last to be read. -/
theorem sharedChunk_not_delivered : ¬ ∀ l : Load, l.OverlapDelivered := by
  intro h
  have hnot : ¬ sharedChunk.layout.tensors.IsChain fun t u =>
      t.size + 2 * u.size ≤ 271000 → u.lastChunkId ≤ t.prefetchChunkId := by
    decide +kernel
  exact hnot (h sharedChunk)

end InstantTensor
