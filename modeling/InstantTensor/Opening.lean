/-
# `InstantTensor.Opening` — what `safe_open` hands to the loaders of a group

Each member of a process group goes through `safe_open` by itself, with its own memory and its own
backends, and opens a loader with the sizes it came to.  For the loaders to be one group these have to be
the arguments of one load, up to the rank and the backend.

They are (`GroupOpens.one_load`): the offsets come from headers that chain, so they are those of
files with tensors; the buffer is made to hold the largest tensor; no size is zero unless it is set
to zero; and members that come to the same sizes agree in everything the loaders share.
-/
import InstantTensor.Extents
import InstantTensor.Splitting
import InstantTensor.Streams

namespace InstantTensor

/-- The members of a group have been through `safe_open` with the same arguments, variables and files,
each with the object `o r`, and call `open` of the extension with `a r`. -/
structure GroupOpens (args env : Settings) (files : Files) (members : List Member) (o : ℕ → SafeOpen)
    (a : ℕ → OpenArgs) : Prop where
  constructed : ∀ r m, members[r]? = some m → safeOpen args env files members m = .ok (o r)
  opens : ∀ r < members.length, (o r).openArgs files r members.length = some (a r)

/-- No size that is given is zero or less. -/
structure Settings.Positive (s : Settings) : Prop where
  chunkSize : ∀ x ∈ s.chunkSize, 0 < x
  concurrency : ∀ x ∈ s.concurrency, 0 < x
  ioDepth : ∀ x ∈ s.ioDepth, 0 < x

theorem Settings.Positive.nonneg {s : Settings} (h : s.Positive) : s.Nonneg where
  chunkSize := fun x hx => (h.chunkSize x hx).le
  concurrency := fun x hx => (h.concurrency x hx).le
  ioDepth := fun x hx => (h.ioDepth x hx).le

/-- The offsets of accepted headers are those of files with tensors. -/
theorem Collected.validOffsets {ms : List SafetensorsMetadata} {ordered : List TensorInfo}
    {offsets : List (ℕ × ℤ)} (h : Collected 0 ms ordered offsets) (hne : ms ≠ [])
    (hle : ∀ m ∈ ms, ∀ t ∈ m.tensorMetadata, t.start ≤ t.stop) : ValidOffsets (toOffsets offsets) := by
  rcases h.offsetsFrom hle with ⟨hnil, -⟩ | ⟨o, rest, heq, hfrom⟩
  · exact absurd hnil hne
  · rw [heq]
    exact ⟨rfl, hfrom⟩

section
variable {args env : Settings} {files : Files} {members : List Member} {o : ℕ → SafeOpen}
  {a : ℕ → OpenArgs}

/-- What a member opens its loader with is a load. -/
theorem GroupOpens.loadable (h : GroupOpens args env files members o a) {pageSize : ℕ}
    (hp : 0 < pageSize) (hpositive : (args.orElse env).Positive)
    (hvalid : ValidOffsets files.tensorOffsets) {r : ℕ} (hr : r < members.length) :
    (a r).Loadable pageSize := by
  have hm : members[r]? = some members[r] := List.getElem?_eq_getElem hr
  obtain ⟨hnonneg, hzeros, hroom⟩ := safeOpen_accepted hpositive.nonneg (h.constructed r _ hm)
  have hopens := openArgs_opens (h.opens r hr)
  have hchunk : (a r).chunkSize ≠ 0 := by
    intro hzero
    have hset := hzeros.chunkSize.mp (by rw [← hopens.chunkSize, hzero]; rfl)
    exact absurd (hpositive.chunkSize 0 hset) (by decide)
  have hthreads : (a r).numThreads ≠ 0 := by
    intro hzero
    have hset := hzeros.concurrency.mp (by rw [← hopens.numThreads, hzero]; rfl)
    exact absurd (hpositive.concurrency 0 hset) (by decide)
  have hdepth : (a r).ioDepth ≠ 0 := by
    intro hzero
    have hset := hzeros.ioDepth.mp (by rw [← hopens.ioDepth, hzero]; rfl)
    exact absurd (hpositive.ioDepth 0 hset) (by decide)
  refine ⟨hp, ⟨?_, ?_, ?_, ?_⟩, ?_, ?_⟩
  · exact Nat.pos_of_ne_zero hchunk
  · exact Nat.pos_of_ne_zero hthreads
  · exact Nat.pos_of_ne_zero hdepth
  · rw [hopens.worldSize]
    omega
  · rw [hopens.tensorOffsets]
    exact hvalid
  · intro size hsize
    rw [hopens.tensorOffsets] at hsize
    have hle := hroom size hsize
    rw [← hopens.bufferSize] at hle
    exact Int.ofNat_le.mp hle

/-- Members that agree open their loaders with the same arguments, up to the rank and the backend. -/
theorem GroupOpens.same_args (h : GroupOpens args env files members o a)
    {q r : ℕ} (hq : q < members.length) (hr : r < members.length)
    (hsame : (o q).Agree files members.length (o r)) :
    a r = { a q with rank := r, backend := (o r).backend } := by
  have hopensq := h.opens q hq
  have hopensr := h.opens r hr
  simp only [SafeOpen.openArgs, Option.bind_eq_bind, Option.bind_eq_some_iff, Option.pure_def,
    Option.some.injEq] at hopensq hopensr
  obtain ⟨b, hb, c, hc, n, hn, d, hd, heq⟩ := hopensq
  obtain ⟨b', hb', c', hc', n', hn', d', hd', heq'⟩ := hopensr
  rw [hsame.bufferSize, hb', Option.some.injEq] at hb
  rw [hsame.chunkSize, hc', Option.some.injEq] at hc
  rw [hsame.concurrency, hn', Option.some.injEq] at hn
  rw [hsame.ioDepth, hd', Option.some.injEq] at hd
  rw [← heq, ← heq', hb, hc, hn, hd]

/-- **The members of a group open one load**: whatever the memory, the processors and the backends of
each, when the headers are accepted and to be trusted, no size is set to zero and the members agree. -/
theorem GroupOpens.one_load (h : GroupOpens args env files members o a) (hmembers : members ≠ [])
    {pageSize : ℕ} (hp : 0 < pageSize) (hpositive : (args.orElse env).Positive)
    (hagree : ∀ r < members.length, (o 0).Agree files members.length (o r))
    {torch : Torch} {headers : List (SafetensorsMetadata × ℕ)} {collected : Headers}
    (hheaders : headers ≠ [])
    (haccepted : readHeaders 0 (headers.map Prod.fst) {} = .ok collected)
    (htrusted : ∀ file ∈ headers, Trusted torch file)
    (hoffsets : files.tensorOffsets = toOffsets collected.tensorOffsets) :
    ∃ l : Load, l.pageSize = pageSize ∧ l.args.worldSize = members.length ∧
      l.args.tensorOffsets = toOffsets collected.tensorOffsets ∧
      ∀ r < members.length, (l.atRank (o r).backend r).args = a r := by
  obtain ⟨ordered, offsets, hcollected, -, hcollects⟩ := readHeaders_collected haccepted
  simp only [List.nil_append] at hcollects
  have hle : ∀ m ∈ headers.map Prod.fst, ∀ t ∈ m.tensorMetadata, t.start ≤ t.stop := by
    intro m hm t ht
    obtain ⟨hne, hchain⟩ := hcollected.chained m hm
    obtain ⟨file, hfile, rfl⟩ := List.mem_map.mp hm
    exact ((htrusted file hfile).extents hne hchain t ht).2.1
  have hvalid : ValidOffsets files.tensorOffsets := by
    rw [hoffsets, hcollects]
    exact hcollected.validOffsets (by simpa using hheaders) hle
  have hfirst : 0 < members.length := List.length_pos_of_ne_nil hmembers
  have hopens := openArgs_opens (h.opens 0 hfirst)
  refine ⟨Load.of pageSize (a 0) (h.loadable hp hpositive hvalid hfirst), rfl, hopens.worldSize, ?_, ?_⟩
  · exact hopens.tensorOffsets.trans hoffsets
  · intro r hr
    exact (h.same_args hfirst hr (hagree r hr)).symm

end

/-- The file of `smallFile`, with its header and the length it has. -/
def oneTensorFile : SafetensorsMetadata × ℕ :=
  (⟨none, [⟨"a", "BF16", [2450], (0, 4900)⟩], 100⟩, 5000)

theorem oneTensorFile_accepted : readHeaders 0 ([oneTensorFile].map Prod.fst) {}
    = .ok ⟨none, [⟨"a", "BF16", [2450], (0, 4900)⟩], [(0, 100), (0, 5000)]⟩ := by
  simp only [oneTensorFile, List.map_cons, List.map_nil, readHeaders, readHeader, orderTensors]
  rw [sortByStart_of_pairwise (by decide)]
  rfl

theorem oneTensorFile_trusted : ∀ file ∈ [oneTensorFile], Trusted recentTorch file := by
  intro file hfile
  obtain rfl := List.mem_singleton.mp hfile
  constructor
  case first => rw [oneTensorFile, sortByStart_of_pairwise (by decide)]; decide
  case last => rw [oneTensorFile, sortByStart_of_pairwise (by decide)]; decide
  case sizes => decide

/-- The same file in memory. -/
def tmpfsFile : Files where
  inMemory := [true]
  tensorOffsets := [(0, 100), (0, 5000)]

/-- The page cache is to be read by io_uring, where there is one. -/
def buffered : Settings :=
  { noSettings with backend := some [.BUFFERED] }

/-- Two machines with as many processors: the second has less memory, and no io_uring. -/
def twoMembers : List Member :=
  [⟨8, true, true, 2 ^ 34⟩, ⟨8, false, true, 2 ^ 33⟩]

/-- What the two come to. -/
def twoOpened (r : ℕ) : SafeOpen where
  backend := if r = 0 then .URING_BUFFERED else .AIO_BUFFERED
  params := ⟨2097152, 4, 3⟩
  bufferSize := 50331648

def twoArgs (r : ℕ) : OpenArgs where
  rank := r
  worldSize := 2
  bufferSize := 50331648
  chunkSize := 2097152
  numThreads := 4
  ioDepth := 3
  backend := (twoOpened r).backend
  tensorOffsets := [(0, 100), (0, 5000)]

/-- They open one load, although the default of `concurrency` depends on the machine. -/
theorem twoMembers_one_load : ∃ l : Load, l.pageSize = 4096 ∧ l.args.worldSize = 2 ∧
    l.args.tensorOffsets = [(0, 100), (0, 5000)] ∧
    ∀ r < 2, (l.atRank (twoOpened r).backend r).args = twoArgs r := by
  have hgroup : GroupOpens buffered noSettings tmpfsFile twoMembers twoOpened twoArgs := by
    constructor
    case constructed =>
      intro r m hm
      match r with
      | 0 => obtain rfl := Option.some.inj hm; decide +kernel
      | 1 => obtain rfl := Option.some.inj hm; decide +kernel
      | r + 2 => cases hm
    case opens =>
      intro r _
      match r with
      | 0 => rfl
      | r + 1 => rfl
  exact hgroup.one_load (by decide) (by decide) ⟨by decide, by decide, by decide⟩
    (fun _ _ => SafeOpen.Agree.of_eq rfl rfl) (by decide) oneTensorFile_accepted
    oneTensorFile_trusted rfl

end InstantTensor
