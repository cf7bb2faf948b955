/-
# `InstantTensor.Agreement` — when all ranks fix the same parameters

What a rank finds on its machine enters the derivation in three places.  The available
memory is reduced over the group, so it is the same for all.  The number of processors sets
the default of `concurrency` for files in memory, and what the probes for io_uring and cuFile
find decides between CUFILE and the others, whose defaults for `concurrency` and `io_depth` are not
the same.  Nothing evens these two out.  AIO, AIO_BUFFERED and MMAP are available everywhere, so that
no candidate behind one of them is tried (`tried`).

`ranks_agree_iff` is the exact condition: the group has one member, or no rank gets through
the constructor, or every default that depends on the machine is overridden or comes out the
same for this group size (`Settled`).
-/
import Mathlib.Data.Nat.Cast.Order.Ring
import Mathlib.Tactic.NormNum
import InstantTensor.Lib.Fallible
import InstantTensor.Frontend
import InstantTensor.Layout
import InstantTensor.Slices
import InstantTensor.Shrinking
import InstantTensor.Recommendation

namespace InstantTensor

/-! ## Agreement -/

/-- Two ranks have the same sizes, and therefore the same layout and all-gathers. -/
structure SafeOpen.Agree (files : Files) (worldSize : ℕ) (o o' : SafeOpen) : Prop where
  chunkSize : o.params.chunkSize = o'.params.chunkSize
  concurrency : o.params.concurrency = o'.params.concurrency
  ioDepth : o.params.ioDepth = o'.params.ioDepth
  bufferSize : o.bufferSize = o'.bufferSize
  layout : ∀ (pageSize rank rank' : ℕ) (a a' : OpenArgs),
    o.openArgs files rank worldSize = some a → o'.openArgs files rank' worldSize = some a' →
    computeLayout (initBuffer pageSize a) a.tensorOffsets
      = computeLayout (initBuffer pageSize a') a'.tensorOffsets
  gather : ∀ (pageSize rank rank' : ℕ) (a a' : OpenArgs),
    o.openArgs files rank worldSize = some a → o'.openArgs files rank' worldSize = some a' →
    ∀ chunkId chunk, (chunkIOParams (initBuffer pageSize a) a chunkId chunk).paddedRankSize
      = (chunkIOParams (initBuffer pageSize a') a' chunkId chunk).paddedRankSize

/-- Any two members of a group of `worldSize` that get through `safe_open` agree. -/
def RanksAgree (args env : Settings) (files : Files) (worldSize : ℕ) : Prop :=
  ∀ members : List Member, members.length = worldSize → ∀ m ∈ members, ∀ m' ∈ members, ∀ o o',
    safeOpen args env files members m = .ok o → safeOpen args env files members m' = .ok o' →
    o.Agree files worldSize o'

/-! ## The condition -/

/-- The candidates tried, in order. -/
def Settings.candidates (s : Settings) (default : List Backend) : List Backend :=
  (s.backend.map fun backends => backends.flatMap expandBackendCandidate).getD default

/-- The candidates up to the first that is available on every machine: no rank comes to another. -/
def tried : List Backend → List Backend
  | [] => []
  | Backend.AIO :: _ => [Backend.AIO]
  | Backend.AIO_BUFFERED :: _ => [Backend.AIO_BUFFERED]
  | Backend.MMAP :: _ => [Backend.MMAP]
  | b :: candidates => b :: tried candidates

/-- No rank gets through the constructor. -/
def NeverOpens (s : Settings) (files : Files) : Prop :=
  s.backend = some [] ∨
  (∃ b ∈ files.inMemory.tail, b ≠ files.inMemory.head?.getD false) ∨
  (s.bufferSize.isSome = true ∧ tensorSizes files.tensorOffsets = [])

/-- No default depends on the machine, in a group of this size. -/
def Settled (s : Settings) (files : Files) (worldSize : ℕ) : Prop :=
  if files.inMemory.head?.getD false = true then
    s.concurrency.isSome = true ∨ 17 ≤ worldSize ∨
      ∀ b ∈ s.candidates defaultInMemoryBackend, b ∉ availableInMemoryBackends
  else
    (∀ b ∈ tried (s.candidates defaultBackend), b = Backend.CUFILE) ∨
    (∀ b ∈ tried (s.candidates defaultBackend), b ≠ Backend.CUFILE) ∨
    ((s.concurrency.isSome = true ∨ 17 ≤ worldSize) ∧
      (s.ioDepth.isSome = true ∨ worldSize = 31 ∨ worldSize = 32))

/-! ## Choosing a backend -/

section
variable {available : Backend → Bool} {supported : Option (List Backend)}

theorem selectBackend_ok {candidates : List Backend} {rejected : List (Backend × Rejection)}
    {b : Backend} (h : selectBackend available supported candidates rejected = .ok b) :
    b ∈ candidates ∧ available b = true ∧ ∀ bs ∈ supported, b ∈ bs := by
  induction candidates generalizing rejected with
  | nil => cases h
  | cons c candidates ih =>
      rw [selectBackend] at h
      split at h
      · exact (ih h).imp_left (List.mem_cons_of_mem _)
      next hsupported =>
      split at h
      · exact (ih h).imp_left (List.mem_cons_of_mem _)
      next havailable =>
      cases h
      refine ⟨List.mem_cons_self, by simpa using havailable, ?_⟩
      rintro bs ⟨⟩
      simpa using hsupported

theorem selectBackend_exists {candidates : List Backend} {rejected : List (Backend × Rejection)}
    {b : Backend} (hmem : b ∈ candidates) (havailable : available b = true)
    (hsupported : ∀ bs ∈ supported, b ∈ bs) :
    ∃ b', selectBackend available supported candidates rejected = .ok b' := by
  induction candidates generalizing rejected with
  | nil => cases hmem
  | cons c candidates ih =>
      rw [selectBackend]
      split
      · next hc =>
        refine ih ((List.mem_cons.mp hmem).resolve_left ?_)
        rintro rfl
        obtain ⟨bs, hbs, hout⟩ := (Option.any_eq_true _ _).mp hc
        exact of_decide_eq_true hout (hsupported bs hbs)
      split
      · next hc =>
        refine ih ((List.mem_cons.mp hmem).resolve_left ?_)
        rintro rfl
        rw [havailable] at hc
        cases hc
      · exact ⟨c, rfl⟩

end

theorem tried_subset (candidates : List Backend) : tried candidates ⊆ candidates := by
  intro b hb
  fun_induction tried candidates with
  | case1 => exact hb
  | case2 candidates | case3 candidates | case4 candidates =>
      obtain rfl := List.mem_singleton.mp hb
      exact List.mem_cons_self
  | case5 c candidates _ _ _ ih =>
      rcases List.mem_cons.mp hb with rfl | hb
      · exact List.mem_cons_self
      · exact List.mem_cons_of_mem _ (ih hb)

/-- On disk a rank comes to a candidate that is tried. -/
theorem mem_tried_of_selectBackend {m : Member} {candidates : List Backend}
    {rejected : List (Backend × Rejection)} {b : Backend}
    (h : selectBackend m.available none candidates rejected = .ok b) : b ∈ tried candidates := by
  induction candidates generalizing rejected with
  | nil => cases h
  | cons c candidates ih =>
      rw [selectBackend, if_neg (by rw [Option.any_none]; exact Bool.false_ne_true)] at h
      split at h
      · next hc =>
        have hrest := ih h
        cases c with
        | AIO | AIO_BUFFERED | MMAP => cases hc
        | URING | URING_BUFFERED | CUFILE => exact List.mem_cons_of_mem _ hrest
      · obtain rfl := Except.ok.inj h
        cases c with
        | _ => exact List.mem_cons_self

/-- Without io_uring a rank that tries CUFILE, and has it, comes to it. -/
theorem selectBackend_cufile {m : Member} (huring : m.uringAvailable = false)
    (hcufile : m.cufileAvailable = true) {candidates : List Backend}
    {rejected : List (Backend × Rejection)} (h : Backend.CUFILE ∈ tried candidates) :
    selectBackend m.available none candidates rejected = .ok Backend.CUFILE := by
  induction candidates generalizing rejected with
  | nil => cases h
  | cons c candidates ih =>
      rw [selectBackend, if_neg (by rw [Option.any_none]; exact Bool.false_ne_true)]
      cases c with
      | AIO | AIO_BUFFERED | MMAP => cases List.mem_singleton.mp h
      | CUFILE =>
          rw [if_neg]
          rw [Member.available, hcufile]
          exact Bool.false_ne_true
      | URING | URING_BUFFERED =>
          rw [if_pos (by rw [Member.available, huring]; rfl)]
          exact ih ((List.mem_cons.mp h).resolve_left Backend.noConfusion)

/-! ## The defaults -/

section
variable {s : Settings} {files : Files} {worldSize : ℕ} {m m' : Member}

theorem parseBackendCandidates_eq (hs : s.backend ≠ some []) :
    parseBackendCandidates s.backend
      = .ok (s.backend.map fun backends => backends.flatMap expandBackendCandidate) := by
  cases hb : s.backend with
  | none => rfl
  | some backends =>
      cases backends with
      | nil => exact absurd hb hs
      | cons b backends => rfl

/-- Once the arguments and the files are accepted, the parameters are those of the chosen
backend. -/
theorem requestedParams_eq (hs : s.backend ≠ some [])
    (hfiles : ¬ ∃ b ∈ files.inMemory.tail, b ≠ files.inMemory.head?.getD false) :
    requestedParams s files worldSize m =
      if files.inMemory.head?.getD false = true then
        (selectBackend m.available (some availableInMemoryBackends)
          (s.candidates defaultInMemoryBackend) []).map
            fun backend => (backend, inMemoryParams worldSize m.cpuCount s)
      else (selectBackend m.available none (s.candidates defaultBackend) []).map
        fun backend => (backend, diskParams worldSize backend s) := by
  have hany : files.inMemory.tail.any (fun b => b ≠ files.inMemory.head?.getD false) = false := by
    rw [← Bool.not_eq_true, List.any_eq_true]
    simpa using hfiles
  rw [requestedParams, parseBackendCandidates_eq hs, ok_bind]
  simp only [hany, Bool.false_eq_true, if_false]
  split
  · rfl
  · rfl

theorem requestedParams_accepts {r : Backend × IOParams}
    (h : requestedParams s files worldSize m = .ok r) :
    s.backend ≠ some [] ∧ ¬ ∃ b ∈ files.inMemory.tail, b ≠ files.inMemory.head?.getD false := by
  obtain ⟨candidates, hparse, h⟩ := bind_ok h
  refine ⟨?_, ?_⟩
  · intro hs
    rw [hs] at hparse
    cases hparse
  · rintro ⟨b, hb, hne⟩
    have hany : files.inMemory.tail.any (fun b => b ≠ files.inMemory.head?.getD false) = true :=
      List.any_eq_true.mpr ⟨b, hb, by simpa using hne⟩
    simp only [hany, if_true] at h
    cases h

/-- The backend of a rank is one of the candidates. -/
theorem requestedParams_inMemory {r : Backend × IOParams}
    (h : requestedParams s files worldSize m = .ok r)
    (hmem : files.inMemory.head?.getD false = true) :
    r.1 ∈ s.candidates defaultInMemoryBackend ∧ r.1 ∈ availableInMemoryBackends ∧
      r.2 = inMemoryParams worldSize m.cpuCount s := by
  obtain ⟨hs, hfiles⟩ := requestedParams_accepts h
  rw [requestedParams_eq hs hfiles, if_pos hmem] at h
  cases hselect : selectBackend m.available (some availableInMemoryBackends)
      (s.candidates defaultInMemoryBackend) [] with
  | error e => rw [hselect] at h; cases h
  | ok b =>
      rw [hselect] at h
      cases h
      obtain ⟨hb, -, hsupported⟩ := selectBackend_ok hselect
      exact ⟨hb, hsupported _ rfl, rfl⟩

theorem requestedParams_disk {r : Backend × IOParams}
    (h : requestedParams s files worldSize m = .ok r)
    (hmem : ¬ files.inMemory.head?.getD false = true) :
    r.1 ∈ tried (s.candidates defaultBackend) ∧ r.2 = diskParams worldSize r.1 s := by
  obtain ⟨hs, hfiles⟩ := requestedParams_accepts h
  rw [requestedParams_eq hs hfiles, if_neg hmem] at h
  cases hselect : selectBackend m.available none (s.candidates defaultBackend) [] with
  | error e => rw [hselect] at h; cases h
  | ok b =>
      rw [hselect] at h
      cases h
      exact ⟨mem_tried_of_selectBackend hselect, rfl⟩

/-! ## What a settled request leaves to the machine -/

/-- The default of `concurrency` for 32 processors is that for any number of them, from 17
ranks on. -/
theorem concurrency_of_le (hw : 17 ≤ worldSize) (cpuCount : ℕ) :
    max (min 32 cpuCount / worldSize) 1 = 1 := by
  have hle : min 32 cpuCount / worldSize ≤ 32 / 17 :=
    Nat.div_le_div (min_le_left _ _) hw (by decide)
  omega

/-- The default of `concurrency` for CUFILE is that of the others from 17 ranks on. -/
theorem getD_concurrency (h : s.concurrency.isSome = true ∨ 17 ≤ worldSize) :
    s.concurrency.getD (max (32 / worldSize) 1 : ℕ) = s.concurrency.getD 1 := by
  rcases h with hgiven | hw
  · obtain ⟨c, hc⟩ := Option.isSome_iff_exists.mp hgiven
    rw [hc, Option.getD_some, Option.getD_some]
  · have hone := concurrency_of_le hw 32
    rw [min_self] at hone
    rw [hone, Nat.cast_one]

theorem getD_ioDepth (h : s.ioDepth.isSome = true ∨ worldSize = 31 ∨ worldSize = 32) :
    s.ioDepth.getD (max (512 / worldSize) 3 : ℕ) = s.ioDepth.getD 16 := by
  rcases h with hgiven | rfl | rfl
  · obtain ⟨d, hd⟩ := Option.isSome_iff_exists.mp hgiven
    rw [hd, Option.getD_some, Option.getD_some]
  · rfl
  · rfl

theorem Settled.params (h : Settled s files worldSize) {r r' : Backend × IOParams}
    (hr : requestedParams s files worldSize m = .ok r)
    (hr' : requestedParams s files worldSize m' = .ok r') : r.2 = r'.2 := by
  unfold Settled at h
  split at h
  · next hmem =>
    obtain ⟨hb, hsupported, heq⟩ := requestedParams_inMemory hr hmem
    obtain ⟨-, -, heq'⟩ := requestedParams_inMemory hr' hmem
    rw [heq, heq']
    rcases h with hgiven | hw | hnone
    · obtain ⟨c, hc⟩ := Option.isSome_iff_exists.mp hgiven
      simp only [inMemoryParams, hc, Option.getD_some]
    · simp only [inMemoryParams, concurrency_of_le hw]
    · exact absurd hsupported (hnone _ hb)
  · next hmem =>
    obtain ⟨hb, heq⟩ := requestedParams_disk hr hmem
    obtain ⟨hb', heq'⟩ := requestedParams_disk hr' hmem
    rw [heq, heq']
    rcases h with hall | hnone | ⟨hconcurrency, hdepth⟩
    · rw [hall _ hb, hall _ hb']
    · simp only [diskParams, if_neg (hnone _ hb), if_neg (hnone _ hb')]
    · simp only [diskParams, getD_concurrency hconcurrency, getD_ioDepth hdepth, ite_self]

end

/-! ## The rest of the derivation -/

section
variable {args env : Settings} {files : Files} {members : List Member} {m m' : Member}

/-- The steps of the constructor. -/
theorem safeOpen_ok {o : SafeOpen} (h : safeOpen args env files members m = .ok o) :
    ∃ r, requestedParams (args.orElse env) files members.length m = .ok r ∧
      shrink members.length (allReduceMin members) r.2 = .ok o.params ∧
      determineBufferSize (args.orElse env).bufferSize (tensorSizes files.tensorOffsets)
        members.length o.params = .ok o.bufferSize := by
  obtain ⟨⟨backend, params⟩, hparams, h⟩ := bind_ok h
  obtain ⟨bufferSize, hbuffer, h⟩ := bind_ok h
  obtain ⟨r, hrequested, hparams⟩ := bind_ok hparams
  obtain ⟨q, hshrink, hparams⟩ := bind_ok hparams
  cases hparams
  cases h
  exact ⟨r, hrequested, hshrink, hbuffer⟩

end

/-- Equal sizes make equal layouts and equal all-gathers. -/
theorem SafeOpen.Agree.of_eq {files : Files} {worldSize : ℕ} {o o' : SafeOpen}
    (hparams : o.params = o'.params) (hbuffer : o.bufferSize = o'.bufferSize) :
    o.Agree files worldSize o' := by
  have hgeometry : ∀ (pageSize rank rank' : ℕ) (a a' : OpenArgs),
      o.openArgs files rank worldSize = some a → o'.openArgs files rank' worldSize = some a' →
      initBuffer pageSize a = initBuffer pageSize a' ∧ a.tensorOffsets = a'.tensorOffsets ∧
        a.worldSize = a'.worldSize := by
    intro pageSize rank rank' a a' ha ha'
    simp only [openArgs, hparams, hbuffer, Option.bind_eq_bind, Option.bind_eq_some_iff,
      Option.pure_def, Option.some.injEq] at ha ha'
    obtain ⟨b, hb, c, hc, n, hn, d, hd, rfl⟩ := ha
    obtain ⟨b', hb', c', hc', n', hn', d', hd', rfl⟩ := ha'
    cases hb.symm.trans hb'
    cases hc.symm.trans hc'
    cases hn.symm.trans hn'
    cases hd.symm.trans hd'
    exact ⟨rfl, rfl, rfl⟩
  refine ⟨by rw [hparams], by rw [hparams], by rw [hparams], hbuffer, ?_, ?_⟩
  · intro pageSize rank rank' a a' ha ha'
    obtain ⟨hg, hoffsets, -⟩ := hgeometry pageSize rank rank' a a' ha ha'
    rw [hg, hoffsets]
  · intro pageSize rank rank' a a' ha ha' chunkId chunk
    obtain ⟨hg, -, hw⟩ := hgeometry pageSize rank rank' a a' ha ha'
    simp only [chunkIOParams, hg, hw]

/-! ## A rank that gets through -/

theorem recommendedBufferSize_ok (tensorSizes : List ℕ) {factor : ℚ} (hfactor : factor ≤ 1) :
    ∃ bufferSize, recommendedBufferSizeForTensors tensorSizes factor = .ok bufferSize := by
  cases tensorSizes with
  | nil => exact ⟨4096, rfl⟩
  | cons first sizes =>
      obtain ⟨_, hs, -⟩ := recommendedBufferSize_isLeast first sizes hfactor
      exact ⟨_, hs⟩

theorem determineBufferSize_ok {bufferSize : Option ℤ} {tensorSizes : List ℕ} (worldSize : ℕ)
    (p : IOParams) (h : ¬ (bufferSize.isSome = true ∧ tensorSizes = [])) :
    ∃ b, determineBufferSize bufferSize tensorSizes worldSize p = .ok b := by
  cases bufferSize with
  | none =>
      obtain ⟨b, hb⟩ := recommendedBufferSize_ok tensorSizes
        (show overlapFactor ≤ 1 by norm_num [overlapFactor])
      exact ⟨_, by rw [determineBufferSize, hb, ok_bind]; rfl⟩
  | some bufferSize =>
      have hne : tensorSizes ≠ [] := fun hnil => h ⟨rfl, hnil⟩
      obtain ⟨b, hb⟩ : ∃ b, tensorSizes.max? = some b :=
        Option.isSome_iff_exists.mp (List.isSome_max?_iff.mpr hne)
      exact ⟨_, by rw [determineBufferSize, hb]⟩

theorem allReduceMin_eq {members : List Member} {availBytes : ℤ} (hne : members ≠ [])
    (h : ∀ m ∈ members, m.availBytes = availBytes) : allReduceMin members = availBytes := by
  have hall : ∀ x ∈ members.map Member.availBytes, x = availBytes := by
    intro x hx
    obtain ⟨m, hm, rfl⟩ := List.mem_map.mp hx
    exact h m hm
  cases hmin : (members.map Member.availBytes).min? with
  | none => exact absurd (List.map_eq_nil_iff.mp (List.min?_eq_none_iff.mp hmin)) hne
  | some x => rw [allReduceMin, hmin, Option.getD_some, hall x (List.min?_mem hmin)]

/-- With enough memory a rank keeps the parameters it asked for. -/
theorem safeOpen_exists {args env : Settings} {files : Files} {members : List Member} {m : Member}
    (hopens : ¬ NeverOpens (args.orElse env) files) {r : Backend × IOParams}
    (hr : requestedParams (args.orElse env) files members.length m = .ok r)
    (hbytes : r.2.bytes members.length ≤ allReduceMin members) :
    ∃ o, safeOpen args env files members m = .ok o ∧ o.params = r.2 := by
  obtain ⟨b, hb⟩ := determineBufferSize_ok members.length r.2 fun h => hopens (.inr (.inr h))
  refine ⟨{ backend := r.1, params := r.2, bufferSize := b }, ?_, rfl⟩
  have hparams : determineIOParams (args.orElse env) files members m = .ok r := by
    rw [determineIOParams, hr, ok_bind]
    simp only [shrink_of_le hbytes]
    rfl
  rw [safeOpen]
  simp only [hparams, ok_bind, hb]
  rfl

/-! ## Machines on which the ranks differ -/

section
variable {s : Settings} {files : Files} {worldSize : ℕ}

theorem requestedParams_of_select (hopens : ¬ NeverOpens s files) {m : Member} {b : Backend}
    (hmem : files.inMemory.head?.getD false = true)
    (hb : selectBackend m.available (some availableInMemoryBackends)
      (s.candidates defaultInMemoryBackend) [] = .ok b) :
    requestedParams s files worldSize m = .ok (b, inMemoryParams worldSize m.cpuCount s) := by
  rw [requestedParams_eq (fun h => hopens (.inl h)) (fun h => hopens (.inr (.inl h))),
    if_pos hmem, hb]
  rfl

theorem requestedParams_of_select_disk (hopens : ¬ NeverOpens s files) {m : Member} {b : Backend}
    (hmem : ¬ files.inMemory.head?.getD false = true)
    (hb : selectBackend m.available none (s.candidates defaultBackend) [] = .ok b) :
    requestedParams s files worldSize m = .ok (b, diskParams worldSize b s) := by
  rw [requestedParams_eq (fun h => hopens (.inl h)) (fun h => hopens (.inr (.inl h))),
    if_neg hmem, hb]
  rfl

/-- Up to 16 ranks 32 processors are more than one for each. -/
theorem concurrency_gt (hw : 2 ≤ worldSize) (hlt : ¬ 17 ≤ worldSize) : 2 ≤ 32 / worldSize :=
  (Nat.le_div_iff_mul_le (by omega)).mpr (by omega)

theorem diskParams_ne (hw : 2 ≤ worldSize) {b : Backend} (hb : b ≠ Backend.CUFILE)
    (h : ¬ ((s.concurrency.isSome = true ∨ 17 ≤ worldSize) ∧
      (s.ioDepth.isSome = true ∨ worldSize = 31 ∨ worldSize = 32))) :
    diskParams worldSize Backend.CUFILE s ≠ diskParams worldSize b s := by
  intro heq
  simp only [diskParams, if_true, if_neg hb, IOParams.mk.injEq, true_and] at heq
  obtain ⟨hconcurrency, hdepth⟩ := heq
  refine h ⟨?_, ?_⟩
  · by_contra hnot
    obtain ⟨hnone, hlt⟩ := not_or.mp hnot
    rw [Bool.not_eq_true, Option.isSome_eq_false_iff, Option.isNone_iff_eq_none] at hnone
    rw [hnone, Option.getD_none, Option.getD_none] at hconcurrency
    have := concurrency_gt hw hlt
    omega
  · by_contra hnot
    obtain ⟨hnone, h31, h32⟩ : ¬ s.ioDepth.isSome = true ∧ worldSize ≠ 31 ∧ worldSize ≠ 32 := by
      tauto
    rw [Bool.not_eq_true, Option.isSome_eq_false_iff, Option.isNone_iff_eq_none] at hnone
    rw [hnone, Option.getD_none, Option.getD_none] at hdepth
    have hquot : 512 / worldSize = 16 := by omega
    have hmod := Nat.div_add_mod 512 worldSize
    have hlt := Nat.mod_lt 512 (show 0 < worldSize by omega)
    rw [hquot] at hmod
    omega

/-- Where a default depends on the machine, some machines make it differ, whatever their
memory. -/
theorem exists_differing (hopens : ¬ NeverOpens s files) (h : ¬ Settled s files worldSize)
    (hw : 2 ≤ worldSize) : ∃ (m m' : ℤ → Member) (r r' : Backend × IOParams), ∀ availBytes,
      (m availBytes).availBytes = availBytes ∧ (m' availBytes).availBytes = availBytes ∧
      requestedParams s files worldSize (m availBytes) = .ok r ∧
      requestedParams s files worldSize (m' availBytes) = .ok r' ∧ r.2 ≠ r'.2 := by
  unfold Settled at h
  split at h
  · next hmem =>
    obtain ⟨hnone, hlt, hcandidate⟩ := not_or.mp h |>.imp_right not_or.mp
    push Not at hcandidate
    obtain ⟨b, hb, hsupported⟩ := hcandidate
    have havailable : (Member.mk 1 true true 0).available b = true := by
      cases b with
      | _ => rfl
    obtain ⟨b', hselect⟩ : ∃ b', selectBackend (Member.mk 1 true true 0).available
        (some availableInMemoryBackends) (s.candidates defaultInMemoryBackend) [] = .ok b' := by
      refine selectBackend_exists hb havailable ?_
      rintro bs ⟨⟩
      exact hsupported
    refine ⟨fun a => ⟨32, true, true, a⟩, fun a => ⟨1, true, true, a⟩,
      (b', inMemoryParams worldSize 32 s), (b', inMemoryParams worldSize 1 s), fun a =>
      ⟨rfl, rfl, requestedParams_of_select hopens hmem hselect,
        requestedParams_of_select hopens hmem hselect, ?_⟩⟩
    rw [Bool.not_eq_true, Option.isSome_eq_false_iff, Option.isNone_iff_eq_none] at hnone
    have hmany := concurrency_gt hw hlt
    have hone : 1 / worldSize = 0 := Nat.div_eq_of_lt (by omega)
    simp only [inMemoryParams, hnone, Option.getD_none, min_self, ne_eq, IOParams.mk.injEq,
      true_and, and_true, show min 32 1 = 1 by decide, hone]
    omega
  · next hmem =>
    push Not at h
    obtain ⟨⟨b, hb, hne⟩, ⟨b', hb', rfl⟩, hdefaults⟩ := h
    have havailable : (Member.mk 1 true false 0).available b = true := by
      cases b with
      | CUFILE => exact absurd rfl hne
      | _ => rfl
    obtain ⟨b', hselect⟩ : ∃ b', selectBackend (Member.mk 1 true false 0).available none
        (s.candidates defaultBackend) [] = .ok b' :=
      selectBackend_exists (tried_subset _ hb) havailable fun _ h => nomatch h
    have hother : b' ≠ Backend.CUFILE := by
      rintro rfl
      cases (selectBackend_ok hselect).2.1
    refine ⟨Member.mk 1 false true, Member.mk 1 true false, _, _, fun a => ⟨rfl, rfl,
      requestedParams_of_select_disk hopens hmem (selectBackend_cufile rfl rfl hb'),
      requestedParams_of_select_disk hopens hmem hselect, ?_⟩⟩
    exact diskParams_ne hw hother fun hboth => by
      have := hdefaults hboth.1
      tauto

end

/-! ## The condition is exact -/

theorem RanksAgree.of_settled {args env : Settings} {files : Files} {worldSize : ℕ}
    (h : Settled (args.orElse env) files worldSize) : RanksAgree args env files worldSize := by
  rintro members rfl m - m' - o o' ho ho'
  obtain ⟨r, hr, hshrink, hbuffer⟩ := safeOpen_ok ho
  obtain ⟨r', hr', hshrink', hbuffer'⟩ := safeOpen_ok ho'
  rw [h.params hr hr', hshrink', Except.ok.injEq] at hshrink
  rw [← hshrink, hbuffer', Except.ok.injEq] at hbuffer
  exact SafeOpen.Agree.of_eq hshrink.symm hbuffer.symm

theorem NeverOpens.not_ok {args env : Settings} {files : Files} {members : List Member} {m : Member}
    (h : NeverOpens (args.orElse env) files) {o : SafeOpen} :
    safeOpen args env files members m ≠ .ok o := by
  intro ho
  obtain ⟨r, hr, -, hbuffer⟩ := safeOpen_ok ho
  obtain ⟨hbackend, hfiles⟩ := requestedParams_accepts hr
  rcases h with h | h | ⟨hgiven, hnil⟩
  · exact hbackend h
  · exact hfiles h
  · obtain ⟨b, hb⟩ := Option.isSome_iff_exists.mp hgiven
    rw [hb, hnil] at hbuffer
    cases hbuffer

/-- **All ranks agree, on all machines, exactly when no default depends on the machine.** -/
theorem ranks_agree_iff (args env : Settings) (files : Files) (worldSize : ℕ) :
    RanksAgree args env files worldSize ↔
      worldSize ≤ 1 ∨ NeverOpens (args.orElse env) files ∨
        Settled (args.orElse env) files worldSize := by
  constructor
  · intro h
    by_contra hnot
    obtain ⟨hw, hopens, hsettled⟩ := not_or.mp hnot |>.imp_right not_or.mp
    obtain ⟨m, m', r, r', hdiffer⟩ := exists_differing hopens hsettled (by omega)
    -- memory enough for what both ranks ask
    set A : ℤ := max (r.2.bytes worldSize) (r'.2.bytes worldSize) with hA
    obtain ⟨ha, ha', hr, hr', hne⟩ := hdiffer A
    set members := m A :: List.replicate (worldSize - 1) (m' A) with hmembers
    have hlength : members.length = worldSize := by
      rw [hmembers, List.length_cons, List.length_replicate]
      omega
    have hmem' : m' A ∈ members :=
      List.mem_cons_of_mem _ (List.mem_replicate.mpr ⟨by omega, rfl⟩)
    have hmin : allReduceMin members = A := allReduceMin_eq (List.cons_ne_nil _ _) fun x hx => by
      rcases List.mem_cons.mp hx with rfl | hx
      · exact ha
      · exact List.eq_of_mem_replicate hx ▸ ha'
    rw [← hlength] at hr hr'
    obtain ⟨o, ho, hparams⟩ := safeOpen_exists hopens hr (by rw [hlength, hmin]; exact le_max_left _ _)
    obtain ⟨o', ho', hparams'⟩ :=
      safeOpen_exists hopens hr' (by rw [hlength, hmin]; exact le_max_right _ _)
    have hagree := h members hlength _ List.mem_cons_self _ hmem' o o' ho ho'
    have hsame : o.params = o'.params :=
      IOParams.ext hagree.chunkSize hagree.concurrency hagree.ioDepth
    exact hne (hparams.symm.trans (hsame.trans hparams'))
  · rintro (hw | hopens | hsettled)
    · intro members hlength m hm m' hm' o o' ho ho'
      have hsingle : m = m' := by
        obtain ⟨x, hx⟩ := List.length_eq_one_iff.mp
          (show members.length = 1 by have := List.length_pos_of_mem hm; omega)
        rw [hx] at hm hm'
        rw [List.mem_singleton.mp hm, List.mem_singleton.mp hm']
      rw [hsingle, ho', Except.ok.injEq] at ho
      exact SafeOpen.Agree.of_eq (by rw [ho]) (by rw [ho])
    · intro members _ m _ m' _ o o' ho
      exact absurd ho hopens.not_ok
    · exact RanksAgree.of_settled hsettled

/-- No argument and no variable is given. -/
def noSettings : Settings where
  bufferSize := none
  chunkSize := none
  concurrency := none
  ioDepth := none
  backend := none

/-- Two ranks load a tensor of ten bytes from memory; one has 8 processors, the other 64. -/
theorem processors_disagree : ¬ RanksAgree noSettings noSettings
    { inMemory := [true], tensorOffsets := [(0, 100), (0, 110)] } 2 := by
  intro h
  have hagree := h [⟨8, true, true, 2 ^ 36⟩, ⟨64, true, true, 2 ^ 36⟩] rfl _
    List.mem_cons_self _ (List.mem_cons_of_mem _ List.mem_cons_self)
    ⟨Backend.MMAP, ⟨2097152, 4, 3⟩, 50331648⟩ ⟨Backend.MMAP, ⟨2097152, 16, 3⟩, 201326592⟩
    (by decide +kernel) (by decide +kernel)
  exact absurd hagree.concurrency (by decide)

end InstantTensor
