/-
# `InstantTensor.Collectives` — do ranks post the same chunks before they close?

Every posted chunk is an all-gather, which has to be matched on all ranks; `close` joins the
thread that runs them.  Each rank posts at its own pace, so the ranks agree on the
number of all-gathers at `CLOSE` only if a run of requests 0, …, m leaves no room for pace.

The least a rank may have posted after `k` requests is a recursion over the tensors
(`Layout.leastReading`): serving tensor `t` takes its last chunk, and the `try_step`
after it adds one if the limit allows.  The most is the prefetch limit of tensor `m`.  Both
are reached by runs (`Load.run_least`, `Load.run_most`), so two ranks match exactly when the
two are equal (`Load.matchAtClose_iff`), and so does a rank post nothing behind `CLOSE`, whatever
its pace (`Load.silent_after_requests_iff`).
-/
import InstantTensor.InOrder
import InstantTensor.Prefetch
import InstantTensor.Ranks

namespace InstantTensor

/-- The last chunk that is posted in any case when `k` requests have been served. -/
def Layout.leastReading (L : Layout) : ℕ → ℤ
  | 0 =>
      match L.tensors[0]? with
      | some t => min 0 t.prefetchChunkId
      | none => -1
  | k + 1 =>
      match L.tensors[k]? with
      | some t => min (max (L.leastReading k) t.lastChunkId + 1) t.prefetchChunkId
      | none => L.leastReading k

/-- `CLOSE` is about to be served, after requests for tensors 0 to `m`. -/
structure Load.Closing (l : Load) (m : ℕ) (s : Loader) : Prop where
  run : Run (Loader.next l.pageSize) (l.start (List.range (m + 1))) s
  control : s.control = .run
  stop : s.stop = false
  queue : s.inputQueue = [.close]

/-- Any two ranks of the group, with whatever backends, have posted equally many chunks when `CLOSE`
is served after requests 0 to `m`. -/
def Load.MatchAtClose (l : Load) (m : ℕ) : Prop :=
  ∀ (backends : ℕ → Backend), ∀ r < l.args.worldSize, ∀ r' < l.args.worldSize, r ≠ r' → ∀ s s',
    (l.atRank (backends r) r).Closing m s → (l.atRank (backends r') r').Closing m s' →
    s.posts = s'.posts

namespace Loader

variable {l : Load} {n k : ℕ} {s s' : Loader}

/-- `chunk_reading` counts the chunks posted. -/
def Counted (s : Loader) : Prop := (s.posts : ℤ) = s.chunkReading + 1

theorem Counted.move (h : Counted s) (hm : Move s s') : Counted s' := by
  unfold Counted posts at *
  cases hm with
  | post => simp [posted]; omega
  | postAwaited => simp [posted]; omega
  | close => simpa using h
  | give => simpa using h
  | _ => exact h

/-! ## At least -/

/-- What has been posted in any case, depending on where the thread stands. -/
def AtLeast (L : Layout) (k : ℕ) (s : Loader) : Prop :=
  match s.control with
  | .run | .poll none | .returned => L.leastReading k ≤ s.chunkReading
  | .tryStep => L.leastReading k ≤ min (s.chunkReading + 1) s.prefetchLimit
  | .waitStep _ | .poll (some _) => 0 < k ∧ L.leastReading (k - 1) ≤ s.chunkReading
  | .failed _ => True

theorem AtLeast.give (ho : Opened l s) (h : InOrder n k s) {chunkId : ℤ}
    (hc : s.control = .waitStep chunkId) (hread : chunkId ≤ s.chunkRead)
    (ha : AtLeast l.layout k s) :
    l.layout.leastReading k ≤ min (s.chunkReading + 1) s.prefetchLimit := by
  rw [AtLeast, hc] at ha
  obtain ⟨hk, hle⟩ := ha
  obtain ⟨t, -, hget, hlimit, hlast⟩ := ho.currentTensor
  have hid := ho.awaits chunkId (by rw [hc]; rfl)
  have hcur := h.current
  rw [ho.tensors, hcur] at hget
  have := ho.read_le
  rw [show k = (k - 1) + 1 by omega, Layout.leastReading]
  simp only [hget]
  omega

/-- The requests served so far, what has been posted in any case, and how the posts are
counted. -/
structure Posting (l : Load) (n k : ℕ) (s : Loader) : Prop extends Handed n k s where
  atLeast : AtLeast l.layout k s
  counted : Counted s

theorem AtLeast.keep (ho : Opened l s) (h : InOrder n k s) (ha : AtLeast l.layout k s)
    (hm : Move s s') (hw : s.control.awaits = none → s'.control.awaits = none) :
    AtLeast l.layout k s' := by
  have hle := ho.reading_le
  cases hm with
  | leave hc => rw [AtLeast, hc] at ha; exact ha
  | get hc => rw [hc] at hw; exact absurd (hw rfl) (by simp [Control.awaits])
  | close hc | background hc =>
      rw [AtLeast, hc] at ha
      exact le_min (show _ ≤ s.chunkReading + 1 by omega) (ha.trans hle)
  | post hc =>
      rw [AtLeast, hc] at ha
      exact ha.trans (min_le_left _ _)
  | idle hc hge =>
      rw [AtLeast, hc] at ha
      exact ha.trans ((min_le_right _ _).trans hge)
  | postAwaited hc =>
      rw [AtLeast, hc] at ha
      exact ⟨ha.1, show _ ≤ s.chunkReading + 1 by omega⟩
  | reap hc =>
      rw [AtLeast, hc] at ha
      rw [AtLeast]
      simp only [hc]
      exact ha
  | give hc hread =>
      have hgive := AtLeast.give ho h hc hread ha
      exact hgive
  | @poll awaited r hc =>
      rw [AtLeast, hc] at ha
      cases awaited with
      | none => exact ha
      | some chunkId => exact ha

theorem Posting.move (ho : Opened l s) (h : Posting l n k s) (hm : Move s s') :
    ∃ k', Posting l n k' s' := by
  have hcounted := h.counted.move hm
  rcases h.toInOrder.move hm with ⟨hin, hw⟩ | ⟨hin, hc, tensor, rfl⟩
  · exact ⟨k, h.toHanded.keep ho hm hin, h.atLeast.keep ho h.toInOrder hm hw, hcounted⟩
  · have ha := h.atLeast
    rw [AtLeast, hc] at ha
    exact ⟨k + 1, h.toHanded.get hc hin, ⟨Nat.succ_pos k, ha⟩, hcounted⟩

theorem Posting.fail (h : Posting l n k s) (e : LoaderError) :
    Posting l n k { s with control := .failed e } :=
  ⟨h.toHanded.fail e, trivial, h.counted⟩

theorem posting_opened (l : Load) (n : ℕ) : Posting l n 0 (l.opened (List.range n)) := by
  refine ⟨handed_opened l n, ?_, rfl⟩
  obtain ⟨t, -, hget, hlimit, -⟩ := (l.opened_opened (List.range n)).currentTensor
  have hget' : l.layout.tensors[0]? = some t := hget
  simp only [AtLeast, Load.opened, Layout.leastReading, hget']
  exact le_of_eq (by rw [← hlimit]; rfl)

end Loader

namespace Load

variable {l : Load} {m : ℕ} {s : Loader}

/-- What is known when `CLOSE` is about to be served. -/
theorem Closing.posting (h : l.Closing m s) :
    Loader.Opened l s ∧ Loader.Posting l (m + 1) (m + 1) s := by
  have hq := h.queue
  rcases l.run_start h.run with rfl | hrun
  · simp [start, Loader.create] at hq
  · obtain ⟨ho, k, hk⟩ := run_invariant (P := fun s => ∃ k, Loader.Posting l (m + 1) k s)
      (fun _ _ ho hP hm => hP.elim fun _ hk => hk.move ho hm)
      (fun _ _ e _ hP _ => hP.imp fun _ hk => hk.fail e)
      (l.opened_opened _) ⟨0, Loader.posting_opened l (m + 1)⟩ hrun
    obtain ⟨rfl, -⟩ := hk.toInOrder.close hq
    exact ⟨ho, hk⟩

theorem Closing.bounds (h : l.Closing m s) :
    ∃ t, l.layout.tensors[m]? = some t ∧
      (∀ a ≤ m, ∀ u, l.layout.tensors[a]? = some u → u.lastChunkId ≤ u.prefetchChunkId) ∧
      l.layout.leastReading (m + 1) ≤ s.chunkReading ∧ s.chunkReading ≤ t.prefetchChunkId := by
  obtain ⟨ho, hp⟩ := h.posting
  obtain ⟨t, -, hget, hlimit, -⟩ := ho.currentTensor
  have hcur : s.currentTensorIndex = m := hp.current
  have ha := hp.atLeast
  rw [Loader.AtLeast, h.control] at ha
  rw [hcur, ho.tensors] at hget
  refine ⟨t, hget, fun a ham u hu => ?_, ha, hlimit ▸ ho.reading_le⟩
  rw [← ho.tensors] at hu
  rcases Nat.lt_or_eq_of_le ham with hlt | rfl
  · exact (hp.before a (by omega) u hu).2
  · exact (hp.now (by rw [h.control]; trivial) (Nat.succ_pos a) u (hcur ▸ hu)).2

/-! ## Both bounds are reached -/

/-- With I/O that is done at once, `k` requests leave the least number of chunks posted. -/
theorem run_least (l : Load) {n : ℕ}
    (hle : ∀ a < n, ∃ u, l.layout.tensors[a]? = some u ∧ u.lastChunkId ≤ u.prefetchChunkId) :
    ∀ k ≤ n, ∃ s, Run (Loader.next l.pageSize) (l.start (List.range n)) s ∧
      Loader.Ready l n k s ∧ s.control = .run ∧ s.chunkRead = s.chunkReading ∧
      s.chunkReading = l.layout.leastReading k := by
  intro k
  induction k with
  | zero =>
      intro _
      have hready := Loader.ready_opened l n
      obtain ⟨t, -, hget, hlimit, -⟩ := hready.opened.currentTensor
      have hget' : l.layout.tensors[0]? = some t := hget
      have hpost := hready.opened.readAtPost_le
      have hreading := hready.opened.reading_le
      obtain ⟨s, hrun, hready', hc, -, hread, hreading'⟩ := hready.tryStep rfl
        (r := min ((l.opened (List.range n)).chunkReading + 1)
          (l.opened (List.range n)).prefetchLimit) (by omega) (by split <;> omega)
      refine ⟨s, (l.run_open _).trans hrun, hready', hc, by omega, ?_⟩
      rw [hreading', hlimit, Layout.leastReading]
      simp only [hget']
      rfl
  | succ k ih =>
      intro hk
      obtain ⟨s, hrun, hready, hc, hread, hleast⟩ := ih (by omega)
      obtain ⟨t, ht, hlast⟩ := hle k (by omega)
      obtain ⟨u, hserve, hready', hcu, hlimit, ⟨heq, hlo, hhi⟩, hread'⟩ := hready.serve
        (I := fun read reading => read = reading ∧ l.layout.leastReading k ≤ reading ∧
          reading ≤ max (l.layout.leastReading k) t.lastChunkId)
        hc (by omega) (hready.opened.tensors ▸ ht) hlast ⟨hread, by omega, by omega⟩
        (fun u hou _ _ _ => ⟨u.chunkReading + 1, Int.le_trans hou.readAtPost_le (by omega),
          Int.le_refl _, by omega⟩)
        (fun _ _ _ _ _ => by omega)
      have hpost := hready'.opened.readAtPost_le
      have hreading := hready'.opened.reading_le
      obtain ⟨s', hrest, hready'', hc', -, hread'', hreading''⟩ := hready'.tryStep hcu
        (r := min (u.chunkReading + 1) u.prefetchLimit) (by omega) (by split <;> omega)
      refine ⟨s', hrun.trans (hserve.trans hrest), hready'', hc', by omega, ?_⟩
      rw [Layout.leastReading]
      simp only [ht]
      omega

/-- With enough time before the next request, the prefetcher comes to its limit. -/
theorem run_most {n k : ℕ} (hready : Loader.Ready l n k s) (hc : s.control = .run) :
    ∃ s', Run (Loader.next l.pageSize) s s' ∧ (Loader.Ready l n k s' ∧ s'.control = .run) ∧
      s'.chunkReading = s'.prefetchLimit := by
  refine Run.exists_of_measure (I := fun t => Loader.Ready l n k t ∧ t.control = .run)
    (fun t => (t.prefetchLimit - t.chunkReading).toNat) ?_ ⟨hready, hc⟩
  rintro t ⟨ht, hct⟩
  have hle := ht.opened.reading_le
  by_cases hlt : t.chunkReading < t.prefetchLimit
  · right
    have hm := Loader.Move.background hct ht.stop hlt
    have ht' : Loader.Ready l n k { t with control := .tryStep } :=
      ⟨ht.opened.move hm, ⟨ht.inOrder.le, ht.inOrder.queue, ht.inOrder.current⟩, ht.queue, ht.stop⟩
    have hpost := ht'.opened.readAtPost_le
    obtain ⟨t', hrun, hready', hc', hlimit, -, hreading⟩ := ht'.tryStep rfl (Int.le_refl _)
      (by split <;> omega)
    refine ⟨t', (ht.opened.run_move hm).trans hrun, ⟨hready', hc'⟩, ?_⟩
    have hlimit' : t'.prefetchLimit = t.prefetchLimit := hlimit
    have hreading' : t'.chunkReading = min (t.chunkReading + 1) t.prefetchLimit := hreading
    omega
  · exact .inl ⟨t, Run.refl t, ⟨ht, hct⟩, by omega⟩

theorem Closing.limit_eq (h : l.Closing m s) {t : TensorMetadate}
    (ht : l.layout.tensors[m]? = some t) : s.prefetchLimit = t.prefetchChunkId := by
  obtain ⟨ho, hp⟩ := h.posting
  obtain ⟨u, -, hget, hlimit, -⟩ := ho.currentTensor
  have hcur : s.currentTensorIndex = m := hp.current
  rw [hcur, ho.tensors, ht, Option.some.injEq] at hget
  rw [hlimit, hget]

theorem servable {t : TensorMetadate} (ht : l.layout.tensors[m]? = some t)
    (hle : ∀ a ≤ m, ∀ u, l.layout.tensors[a]? = some u → u.lastChunkId ≤ u.prefetchChunkId) :
    ∀ a < m + 1, ∃ u, l.layout.tensors[a]? = some u ∧ u.lastChunkId ≤ u.prefetchChunkId := by
  intro a ha
  have hlt := (List.getElem?_eq_some_iff.mp ht).1
  have hget := List.getElem?_eq_getElem (show a < l.layout.tensors.length by omega)
  exact ⟨_, hget, hle a (by omega) _ hget⟩

/-- A rank that gets no time between its requests. -/
theorem closing_least (l : Load) {t : TensorMetadate} (ht : l.layout.tensors[m]? = some t)
    (hle : ∀ a ≤ m, ∀ u, l.layout.tensors[a]? = some u → u.lastChunkId ≤ u.prefetchChunkId) :
    ∃ s, l.Closing m s ∧ s.prefetchLimit = t.prefetchChunkId ∧
      s.chunkReading = l.layout.leastReading (m + 1) := by
  obtain ⟨s, hrun, hready, hc, -, hleast⟩ := l.run_least (servable ht hle) (m + 1) (Nat.le_refl _)
  have hclosing : l.Closing m s := ⟨hrun, hc, hready.stop, hready.queue.trans (upcoming_self _)⟩
  exact ⟨s, hclosing, hclosing.limit_eq ht, hleast⟩

/-- A rank that gets as much as it can use. -/
theorem closing_most (l : Load) {t : TensorMetadate} (ht : l.layout.tensors[m]? = some t)
    (hle : ∀ a ≤ m, ∀ u, l.layout.tensors[a]? = some u → u.lastChunkId ≤ u.prefetchChunkId) :
    ∃ s, l.Closing m s ∧ s.chunkReading = t.prefetchChunkId := by
  obtain ⟨s, hrun, hready, hc, -, -⟩ := l.run_least (servable ht hle) (m + 1) (Nat.le_refl _)
  obtain ⟨s', hrest, ⟨hready', hc'⟩, hmost⟩ := run_most hready hc
  have hclosing : l.Closing m s' :=
    ⟨hrun.trans hrest, hc', hready'.stop, hready'.queue.trans (upcoming_self _)⟩
  exact ⟨s', hclosing, hmost.trans (hclosing.limit_eq ht)⟩

theorem least_of_match (hworld : 1 < l.args.worldSize) (hmatch : l.MatchAtClose m)
    {t : TensorMetadate} (ht : l.layout.tensors[m]? = some t)
    (hle : ∀ a ≤ m, ∀ u, l.layout.tensors[a]? = some u → u.lastChunkId ≤ u.prefetchChunkId) :
    l.layout.leastReading (m + 1) = t.prefetchChunkId := by
  obtain ⟨s, hclosing, -, hleast⟩ := (l.atRank l.args.backend 0).closing_least ht hle
  obtain ⟨s', hclosing', hmost⟩ := (l.atRank l.args.backend 1).closing_most ht hle
  have hposts := hmatch (fun _ => l.args.backend) 0 (Nat.zero_lt_of_lt hworld) 1 hworld
    Nat.zero_ne_one s s' hclosing hclosing'
  have hcount : (s.posts : ℤ) = s.chunkReading + 1 := hclosing.posting.2.counted
  have hcount' : (s'.posts : ℤ) = s'.chunkReading + 1 := hclosing'.posting.2.counted
  have hleast : s.chunkReading = l.layout.leastReading (m + 1) := hleast
  omega

/-- **The ranks match at `CLOSE` exactly when serving the requests takes the prefetcher to its
limit** — or the requests cannot be served, or there is one rank only. -/
theorem matchAtClose_iff (l : Load) (m : ℕ) :
    l.MatchAtClose m ↔ l.args.worldSize ≤ 1 ∨ ∀ t, l.layout.tensors[m]? = some t →
      (∀ a ≤ m, ∀ u, l.layout.tensors[a]? = some u → u.lastChunkId ≤ u.prefetchChunkId) →
      l.layout.leastReading (m + 1) = t.prefetchChunkId := by
  constructor
  · intro hmatch
    rcases Nat.lt_or_ge 1 l.args.worldSize with hworld | hworld
    · exact .inr fun t ht hle => least_of_match hworld hmatch ht hle
    · exact .inl hworld
  · rintro (hworld | hleast) backends r hr r' hr' hne s₁ s₂ hs₁ hs₂
    · exact absurd (show r = r' by omega) hne
    · have hpinned : ∀ (b : Backend) (r : ℕ) (s : Loader), (l.atRank b r).Closing m s →
          ∃ t, l.layout.tensors[m]? = some t ∧ (s.posts : ℤ) = t.prefetchChunkId + 1 := by
        intro b r s hs
        obtain ⟨t, ht, hserved, hlo, hhi⟩ := hs.bounds
        have hcount : (s.posts : ℤ) = s.chunkReading + 1 := hs.posting.2.counted
        have hlo : l.layout.leastReading (m + 1) ≤ s.chunkReading := hlo
        have := hleast t ht hserved
        exact ⟨t, ht, by omega⟩
      obtain ⟨t₁, ht₁, hposts₁⟩ := hpinned _ _ s₁ hs₁
      obtain ⟨t₂, ht₂, hposts₂⟩ := hpinned _ _ s₂ hs₂
      rw [ht₁, Option.some.injEq] at ht₂
      subst ht₂
      omega

/-- **No chunk is posted behind `CLOSE`, at whatever pace, exactly when serving the requests takes
the prefetcher to its limit** — or the requests cannot be served. -/
theorem silent_after_requests_iff (l : Load) (m : ℕ) :
    (∀ s s', l.Closing m s → Step (Loader.next l.pageSize) s s' → s'.stop = true →
      ∀ s'', Run (Loader.next l.pageSize) s' s'' → s''.posts = s'.posts)
      ↔ ∀ t, l.layout.tensors[m]? = some t →
        (∀ a ≤ m, ∀ u, l.layout.tensors[a]? = some u → u.lastChunkId ≤ u.prefetchChunkId) →
        l.layout.leastReading (m + 1) = t.prefetchChunkId := by
  constructor
  · intro hsilent t ht hle
    obtain ⟨s, hclosing, hlimit, hleast⟩ := l.closing_least ht hle
    have ho := hclosing.posting.1
    obtain ⟨c, -, hnext⟩ := ho.move_next l.pageSize
      (.close hclosing.control hclosing.stop hclosing.queue)
    have hge := (silent_iff ho ⟨c, hnext⟩ hclosing.stop rfl).mp
      (hsilent s _ hclosing ⟨c, hnext⟩ rfl)
    have hreading := ho.reading_le
    omega
  · intro hleast s s' hclosing hstep hstop
    obtain ⟨t, ht, hserved, hlo, hhi⟩ := hclosing.bounds
    have ho := hclosing.posting.1
    have hlimit := hclosing.limit_eq ht
    have := hleast t ht hserved
    exact (silent_iff ho hstep hclosing.stop hstop).mpr (by omega)

end Load

/-- The files of `twoLaps`, loaded by two ranks. -/
def twoLapsShared : Load := Load.of 4096 { twoLaps.args with worldSize := 2 } (by decide)

/-- Closing `twoLapsShared` after its first tensor: a rank with slow prefetching has posted four
chunks, one with fast prefetching five. -/
theorem twoLapsShared_mismatch : ¬ ∀ (l : Load) (m : ℕ), l.MatchAtClose m := by
  intro h
  have hfirst : ∀ t, twoLapsShared.layout.tensors[0]? = some t →
      t.lastChunkId ≤ t.prefetchChunkId ∧
        twoLapsShared.layout.leastReading 1 ≠ t.prefetchChunkId := by
    decide +kernel
  obtain ⟨t, ht⟩ : ∃ t, twoLapsShared.layout.tensors[0]? = some t :=
    ⟨_, List.getElem?_eq_getElem (by decide +kernel)⟩
  refine (hfirst t ht).2 (Load.least_of_match (by decide) (h twoLapsShared 0) ht fun a ha u hu => ?_)
  rw [Nat.le_zero.mp ha] at hu
  exact (hfirst u hu).1

end InstantTensor
