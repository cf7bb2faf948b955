/-
# `InstantTensor.HostBuffers` — who owns a cached host buffer

A host buffer is made by the loader that finds none in the cache that is large enough, and passes
from loader to loader through the cache from then on.  It is never lost and never shared, and no
loader gets one that is too small.  Its deleter keeps pointing to the loader that made it, which
ends with its thread some time after its `close`; nothing waits for the other.  The cache runs the
deleters when it is destroyed at exit, so that the loader a deleter reads may be gone, and it
knows nothing of buffers that are in use then (`hostBuffers_exact_iff`).

`open` and `close` are called one after the other, and an exception in a loader's thread ends the
process.  What moves on its own are the threads: they may end at any time after their `close`,
also between two deleters.
-/
import Mathlib.Data.List.Nodup
import InstantTensor.Lib.Runs
import InstantTensor.Uring

namespace InstantTensor

/-! ## The cache -/

/-- The deleter is a closure; what it keeps is the loader that made it. -/
structure HostBufferCacheEntry where
  ptr : ℕ
  size : ℕ
  deleter : ℕ
deriving DecidableEq, Repr

def HostBufferCacheEntry.toHostBuffer (entry : HostBufferCacheEntry) : HostBuffer where
  ptr := entry.ptr
  size := entry.size

/-- `HostBufferCache::get`, and what it leaves in the cache. -/
def HostBufferCache.get (size : ℕ) (cachedHostBuffers : List HostBufferCacheEntry) :
    Option HostBufferCacheEntry × List HostBufferCacheEntry :=
  (cachedHostBuffers.find? fun entry => size ≤ entry.size,
    cachedHostBuffers.eraseP fun entry => size ≤ entry.size)

/-! ## Loaders -/

inductive Lifetime where
  | opened | closed | destroyed
deriving DecidableEq, Repr

/-- A `Loader` object, as far as its host buffer goes. -/
structure BufferLoader where
  backend : Backend
  hostBufferSize : ℕ
  hostBufferEntry : Option HostBufferCacheEntry
  lifetime : Lifetime
deriving DecidableEq, Repr

/-- A call of a deleter: of which entry, and the object it reads as it is then. -/
structure Deletion where
  entry : HostBufferCacheEntry
  captured : Option BufferLoader
deriving DecidableEq, Repr

/-- The cache, the loaders by their handles, and the deleters called so far.  Pointers count the
allocations. -/
structure HostBuffers where
  cachedHostBuffers : List HostBufferCacheEntry := []
  /-- `~HostBufferCache` is running, or has run. -/
  destroying : Bool := false
  loaders : List BufferLoader := []
  allocated : ℕ := 0
  deletions : List Deletion := []
deriving DecidableEq, Repr

namespace HostBuffers

inductive Move where
  | open (args : OpenArgs) (numFiles : ℕ)
  | close (handle : ℕ)
  /-- `run_loader` returns. -/
  | exit (handle : ℕ)
  /-- `cleanup` resets the cache. -/
  | cleanup
  /-- `~HostBufferCache` calls the next deleter. -/
  | delete
deriving DecidableEq, Repr

/-- `need_host_buffer`, behind `open_file`. -/
def needHostBuffer (useInternalMemoryRegister : Bool) (backend : Backend) (numFiles : ℕ) : Bool :=
  0 < numFiles && match backend with
    | .MMAP => !useInternalMemoryRegister
    | .CUFILE => false
    | _ => true

/-- `init_buffer` of the loader with the next handle, where it needs a host buffer. -/
def initHostBuffer (hostBufferSize : ℕ) (s : HostBuffers) : HostBufferCacheEntry × HostBuffers :=
  match HostBufferCache.get hostBufferSize s.cachedHostBuffers with
  | (some entry, cachedHostBuffers) => (entry, { s with cachedHostBuffers })
  | (none, cachedHostBuffers) =>
      ({ ptr := s.allocated, size := hostBufferSize, deleter := s.loaders.length },
        { s with cachedHostBuffers, allocated := s.allocated + 1 })

/-- `entry.deleter(entry.ptr)`. -/
def callDeleter (entry : HostBufferCacheEntry) (s : HostBuffers) : HostBuffers :=
  { s with deletions := s.deletions ++ [{ entry, captured := s.loaders[entry.deleter]? }] }

section
variable (pageSize : ℕ) (useInternalMemoryRegister cacheBuffer : Bool)

def openLoader (args : OpenArgs) (numFiles : ℕ) (s : HostBuffers) : HostBuffers :=
  let hostBufferSize := args.ioDepth * (initBuffer pageSize args).rankChunkSize
  if needHostBuffer useInternalMemoryRegister args.backend numFiles then
    let (entry, s) := initHostBuffer hostBufferSize s
    { s with loaders := s.loaders ++ [{
        backend := args.backend
        hostBufferSize
        hostBufferEntry := some entry
        lifetime := .opened }] }
  else
    { s with loaders := s.loaders ++ [{
        backend := args.backend
        hostBufferSize
        hostBufferEntry := none
        lifetime := .opened }] }

/-- `destroy_buffer`; `cacheBuffer` is `_env_cache_buffer()`. -/
def destroyHostBuffer (l : BufferLoader) (s : HostBuffers) : HostBuffers :=
  match l.hostBufferEntry with
  | none => s
  | some entry =>
      if cacheBuffer then { s with cachedHostBuffers := s.cachedHostBuffers ++ [entry] }
      else s.callDeleter entry

def next : Move → HostBuffers → Option HostBuffers
  | .open args numFiles, s =>
      if s.destroying then none
      else some (openLoader pageSize useInternalMemoryRegister args numFiles s)
  | .close handle, s =>
      if s.destroying then none else do
        let l ← s.loaders[handle]?
        guard (l.lifetime = .opened)
        let s := destroyHostBuffer cacheBuffer l s
        -- what the move out of the entry leaves there is not read again
        let closed := { l with hostBufferEntry := none, lifetime := .closed }
        some { s with loaders := s.loaders.set handle closed }
  | .exit handle, s => do
      let l ← s.loaders[handle]?
      guard (l.lifetime = .closed)
      let destroyed := { l with lifetime := .destroyed }
      some { s with loaders := s.loaders.set handle destroyed }
  | .cleanup, s => if s.destroying then none else some { s with destroying := true }
  | .delete, s =>
      if s.destroying then
        match s.cachedHostBuffers with
        | [] => none
        | entry :: cachedHostBuffers => some (callDeleter entry { s with cachedHostBuffers })
      else none

end

/-! ## What is asked of them -/

/-- The buffer is allocated and registered, and not deleted yet. -/
def Registered (s : HostBuffers) (ptr : ℕ) : Prop :=
  ptr < s.allocated ∧ ∀ d ∈ s.deletions, d.entry.ptr ≠ ptr

end HostBuffers

/-- The loader is open and has the buffer. -/
def BufferLoader.Holds (l : BufferLoader) (ptr : ℕ) : Prop :=
  l.lifetime = .opened ∧ ∃ entry ∈ l.hostBufferEntry, entry.ptr = ptr

instance (l : BufferLoader) (ptr : ℕ) : Decidable (l.Holds ptr) :=
  inferInstanceAs (Decidable (_ ∧ _))

namespace HostBuffers

/-- What is to hold at all times. -/
structure OneOwner (s : HostBuffers) : Prop where
  /-- One place in the cache, or one open loader. -/
  owner : ∀ ptr, s.Registered ptr →
    s.cachedHostBuffers.countP (fun entry => entry.ptr = ptr)
      + s.loaders.countP (fun l => l.Holds ptr) = 1
  /-- What `get` returned is not smaller than what was asked for. -/
  size : ∀ l ∈ s.loaders, ∀ entry ∈ l.hostBufferEntry, l.hostBufferSize ≤ entry.size

/-- What is to hold when the cache is gone. -/
structure Deleted (s : HostBuffers) : Prop where
  once : ∀ ptr < s.allocated, s.deletions.countP (fun d => d.entry.ptr = ptr) = 1
  alive : ∀ d ∈ s.deletions, ∃ l ∈ d.captured, l.lifetime ≠ .destroyed

/-- The last deleter was called. -/
def Finished (s : HostBuffers) : Prop := s.destroying = true ∧ s.cachedHostBuffers = []

/-- The entries of the buffers that are registered. -/
def entries (s : HostBuffers) : List HostBufferCacheEntry :=
  s.cachedHostBuffers ++ s.loaders.flatMap fun l => l.hostBufferEntry.toList

/-- A thread ends with no buffer around that its loader made, and the cache is destroyed with no
buffer in use. -/
def Safe (s : HostBuffers) : Move → Prop
  | .exit handle => ∀ entry ∈ s.entries, entry.deleter ≠ handle
  | .cleanup => ∀ l ∈ s.loaders, l.lifetime = .opened → l.hostBufferEntry = none
  | _ => True

instance (s : HostBuffers) : ∀ a, Decidable (s.Safe a)
  | .exit handle => inferInstanceAs (Decidable (∀ entry ∈ s.entries, entry.deleter ≠ handle))
  | .cleanup => inferInstanceAs (Decidable (∀ l ∈ s.loaders, _ → l.hostBufferEntry = none))
  | .open _ _ | .close _ | .delete => inferInstanceAs (Decidable True)

/-! ## One step -/

end HostBuffers

section
variable {size : ℕ} {cached : List HostBufferCacheEntry}

theorem HostBufferCache.get_some {entry : HostBufferCacheEntry}
    (h : (HostBufferCache.get size cached).1 = some entry) :
    size ≤ entry.size ∧ cached.Perm (entry :: (HostBufferCache.get size cached).2) := by
  have hsize := List.find?_some (show cached.find? (fun entry => size ≤ entry.size) = _ from h)
  exact ⟨of_decide_eq_true hsize, perm_eraseP h⟩

theorem HostBufferCache.get_none (h : (HostBufferCache.get size cached).1 = none) :
    (HostBufferCache.get size cached).2 = cached := by
  refine List.eraseP_of_forall_not fun entry hentry => ?_
  exact List.find?_eq_none.mp h entry hentry

theorem HostBufferCache.get_cons (entry : HostBufferCacheEntry) :
    HostBufferCache.get size (entry :: cached) = if size ≤ entry.size then (some entry, cached)
      else ((HostBufferCache.get size cached).1, entry :: (HostBufferCache.get size cached).2) := by
  unfold HostBufferCache.get
  split
  · next hsize => simp [hsize]
  · next hsize => simp [hsize]

/-- What `get` does to pointers and sizes. -/
theorem cacheGet_eq_get : cacheGet size (cached.map HostBufferCacheEntry.toHostBuffer)
    = ((HostBufferCache.get size cached).1.map HostBufferCacheEntry.toHostBuffer,
      (HostBufferCache.get size cached).2.map HostBufferCacheEntry.toHostBuffer) := by
  induction cached with
  | nil => rfl
  | cons entry cached ih =>
      rw [List.map_cons, cacheGet, HostBufferCache.get_cons]
      show (if size ≤ entry.size then _ else _) = _
      split
      · rfl
      · rw [ih]
        rfl

end

namespace HostBuffers

/-- What a move does with caching enabled. -/
inductive Moved (s : HostBuffers) : Move → HostBuffers → Prop
  | opened {args : OpenArgs} {numFiles : ℕ} {l : BufferLoader} : s.destroying = false →
      l.lifetime = .opened → l.hostBufferEntry = none →
      Moved s (.open args numFiles) { s with loaders := s.loaders ++ [l] }
  | reused {args : OpenArgs} {numFiles : ℕ} {l : BufferLoader} {entry : HostBufferCacheEntry}
      {cached : List HostBufferCacheEntry} : s.destroying = false → l.lifetime = .opened →
      l.hostBufferEntry = some entry → l.hostBufferSize ≤ entry.size →
      s.cachedHostBuffers.Perm (entry :: cached) →
      Moved s (.open args numFiles)
        { s with cachedHostBuffers := cached, loaders := s.loaders ++ [l] }
  | allocated {args : OpenArgs} {numFiles : ℕ} {l : BufferLoader} {entry : HostBufferCacheEntry} :
      s.destroying = false → l.lifetime = .opened → l.hostBufferEntry = some entry →
      l.hostBufferSize ≤ entry.size → entry.ptr = s.allocated →
      entry.deleter = s.loaders.length →
      Moved s (.open args numFiles)
        { s with allocated := s.allocated + 1, loaders := s.loaders ++ [l] }
  | closed {handle : ℕ} {l l' : BufferLoader} : s.destroying = false →
      s.loaders[handle]? = some l → l.lifetime = .opened → l'.lifetime = .closed →
      l'.hostBufferEntry = none →
      Moved s (.close handle) { s with
        cachedHostBuffers := s.cachedHostBuffers ++ l.hostBufferEntry.toList
        loaders := s.loaders.set handle l' }
  | exited {handle : ℕ} {l l' : BufferLoader} : s.loaders[handle]? = some l →
      l.lifetime = .closed → l'.lifetime = .destroyed → l'.hostBufferEntry = l.hostBufferEntry →
      l'.hostBufferSize = l.hostBufferSize →
      Moved s (.exit handle) { s with loaders := s.loaders.set handle l' }
  | cleanup : s.destroying = false → Moved s .cleanup { s with destroying := true }
  | deleted {entry : HostBufferCacheEntry} {cached : List HostBufferCacheEntry} :
      s.destroying = true → s.cachedHostBuffers = entry :: cached →
      Moved s .delete { s with
        cachedHostBuffers := cached
        deletions := s.deletions ++ [{ entry, captured := s.loaders[entry.deleter]? }] }

section
variable {pageSize : ℕ} {useInternalMemoryRegister : Bool} {s s' : HostBuffers} {a : Move}

theorem openLoader_moved (args : OpenArgs) (numFiles : ℕ) (hrunning : s.destroying = false) :
    Moved s (.open args numFiles)
      (openLoader pageSize useInternalMemoryRegister args numFiles s) := by
  unfold openLoader initHostBuffer
  simp only
  split
  · split
    · next entry cached hget =>
      obtain ⟨hsize, hperm⟩ := HostBufferCache.get_some (congrArg Prod.fst hget)
      rw [hget] at hperm
      exact .reused hrunning rfl rfl hsize hperm
    · next cached hget =>
      have hsame := HostBufferCache.get_none (congrArg Prod.fst hget)
      rw [hget] at hsame
      obtain rfl : cached = s.cachedHostBuffers := hsame
      exact .allocated hrunning rfl rfl le_rfl rfl rfl
  · exact .opened hrunning rfl rfl

theorem next_moved (h : next pageSize useInternalMemoryRegister true a s = some s') :
    Moved s a s' := by
  cases a with
  | «open» args numFiles =>
      rw [next] at h
      split at h
      · cases h
      next hrunning =>
      obtain rfl := Option.some.inj h
      exact openLoader_moved args numFiles (Bool.eq_false_of_not_eq_true hrunning)
  | close handle =>
      rw [next] at h
      split at h
      · cases h
      next hrunning =>
      obtain ⟨l, hl, h⟩ := Option.bind_eq_some_iff.mp h
      obtain ⟨_, hopened, h⟩ := Option.bind_eq_some_iff.mp h
      obtain rfl := Option.some.inj h
      have hcached : destroyHostBuffer true l s = { s with
          cachedHostBuffers := s.cachedHostBuffers ++ l.hostBufferEntry.toList } := by
        unfold destroyHostBuffer
        cases l.hostBufferEntry with
        | none => rw [Option.toList_none, List.append_nil]
        | some entry => rfl
      rw [hcached]
      exact .closed (Bool.eq_false_of_not_eq_true hrunning) hl (by simpa [guard] using hopened) rfl
        rfl
  | exit handle =>
      obtain ⟨l, hl, h⟩ := Option.bind_eq_some_iff.mp h
      obtain ⟨_, hclosed, h⟩ := Option.bind_eq_some_iff.mp h
      obtain rfl := Option.some.inj h
      exact .exited hl (by simpa [guard] using hclosed) rfl rfl rfl
  | cleanup =>
      rw [next] at h
      split at h
      · cases h
      next hrunning =>
      obtain rfl := Option.some.inj h
      exact .cleanup (Bool.eq_false_of_not_eq_true hrunning)
  | delete =>
      rw [next] at h
      split at h
      · next hdestroying =>
        split at h
        · cases h
        · next hcached =>
          obtain rfl := Option.some.inj h
          exact .deleted hdestroying hcached
      · cases h

/-- The buffers of the loaders. -/
def held (loaders : List BufferLoader) : List HostBufferCacheEntry :=
  loaders.flatMap fun l => l.hostBufferEntry.toList

theorem entries_eq (s : HostBuffers) : s.entries = s.cachedHostBuffers ++ held s.loaders := rfl

theorem held_concat (loaders : List BufferLoader) (l : BufferLoader) :
    held (loaders ++ [l]) = held loaders ++ l.hostBufferEntry.toList := by
  rw [held, List.flatMap_append, List.flatMap_singleton]
  rfl

/-- What a move does to the entries: they are passed on, one is made for a new loader, or the
first one's deleter is called. -/
inductive Passed (s s' : HostBuffers) : Prop
  | kept : s'.entries.Perm s.entries → s'.deletions = s.deletions →
      s'.allocated = s.allocated → Passed s s'
  | made {entry : HostBufferCacheEntry} {l : BufferLoader} : entry.ptr = s.allocated →
      s'.loaders = s.loaders ++ [l] → entry.deleter = s.loaders.length → l.lifetime = .opened →
      s'.entries.Perm (entry :: s.entries) → s'.deletions = s.deletions →
      s'.allocated = s.allocated + 1 → Passed s s'
  | deleted {entry : HostBufferCacheEntry} : s.entries = entry :: s'.entries →
      s'.deletions = s.deletions ++ [{ entry, captured := s.loaders[entry.deleter]? }] →
      s'.allocated = s.allocated → Passed s s'

theorem Moved.passed (h : Moved s a s') : Passed s s' := by
  cases h with
  | opened _ _ hentry =>
      refine .kept ?_ rfl rfl
      rw [entries_eq, held_concat, hentry, Option.toList_none, List.append_nil]
      exact .refl _
  | reused _ _ hentry _ hcached =>
      refine .kept ?_ rfl rfl
      rw [entries_eq, held_concat, hentry, Option.toList_some, ← List.append_assoc]
      exact (List.perm_append_singleton ..).trans (hcached.symm.append_right _)
  | allocated _ hopened hentry _ hptr hdeleter =>
      refine .made hptr rfl hdeleter hopened ?_ rfl rfl
      rw [entries_eq, held_concat, hentry, Option.toList_some, ← List.append_assoc]
      exact List.perm_append_singleton ..
  | @closed _ l l' _ hl _ _ hentry =>
      refine .kept ?_ rfl rfl
      have hset := flatMap_set_perm hl l' fun l => l.hostBufferEntry.toList
      rw [hentry, Option.toList_none, List.nil_append] at hset
      rw [entries_eq, List.append_assoc]
      exact hset.append_left _
  | exited hl _ _ hentry =>
      refine .kept ?_ rfl rfl
      rw [entries_eq, held, flatMap_set_eq hl (congrArg Option.toList hentry)]
      exact .refl _
  | cleanup => exact .kept (.refl _) rfl rfl
  | deleted _ hcached =>
      refine .deleted ?_ rfl rfl
      rw [entries_eq, hcached]
      rfl

/-- A loader ends with its thread, and otherwise stays. -/
theorem Moved.lifetime (h : Moved s a s') {k : ℕ} {l : BufferLoader} (hl : s.loaders[k]? = some l) :
    ∃ l', s'.loaders[k]? = some l' ∧
      (l'.lifetime = .destroyed ↔ l.lifetime = .destroyed ∨ a = .exit k) := by
  have hlt := (List.getElem?_eq_some_iff.mp hl).1
  have hkeep : ∀ x, (s.loaders ++ [x])[k]? = some l := fun x =>
    (List.getElem?_append_left hlt).trans hl
  cases h with
  | opened => exact ⟨l, hkeep _, (or_iff_left nofun).symm⟩
  | reused => exact ⟨l, hkeep _, (or_iff_left nofun).symm⟩
  | allocated => exact ⟨l, hkeep _, (or_iff_left nofun).symm⟩
  | @closed handle l₁ l' _ hl₁ hopened hclosed _ =>
      by_cases hk : handle = k
      · subst hk
        obtain rfl := Option.some.inj (hl.symm.trans hl₁)
        refine ⟨l', List.getElem?_set_self hlt, ?_⟩
        simp [hclosed, hopened]
      · exact ⟨l, (List.getElem?_set_ne hk).trans hl, (or_iff_left nofun).symm⟩
  | @exited handle l₁ l' hl₁ hclosed hdestroyed _ _ =>
      by_cases hk : handle = k
      · subst hk
        exact ⟨l', List.getElem?_set_self hlt, iff_of_true hdestroyed (.inr rfl)⟩
      · refine ⟨l, (List.getElem?_set_ne hk).trans hl, (or_iff_left ?_).symm⟩
        rintro ⟨⟩
        exact hk rfl
  | cleanup => exact ⟨l, hl, (or_iff_left nofun).symm⟩
  | deleted => exact ⟨l, hl, (or_iff_left nofun).symm⟩

theorem Moved.destroying_iff (h : Moved s a s') :
    s'.destroying = true ↔ s.destroying = true ∨ a = .cleanup := by
  cases h with
  | cleanup => exact iff_of_true rfl (.inr rfl)
  | _ => exact (or_iff_left nofun).symm

/-- What is in use when the cache is destroyed stays in use. -/
theorem Moved.held_eq (h : Moved s a s') (hdestroying : s'.destroying = true) :
    held s'.loaders = held s.loaders := by
  cases h with
  | opened hrunning => cases hrunning.symm.trans hdestroying
  | reused hrunning => cases hrunning.symm.trans hdestroying
  | allocated hrunning => cases hrunning.symm.trans hdestroying
  | closed hrunning => cases hrunning.symm.trans hdestroying
  | exited hl _ _ hentry => exact flatMap_set_eq hl (congrArg Option.toList hentry)
  | cleanup => rfl
  | deleted => rfl

/-! ## The inventory -/

/-- A loader that is not open has no buffer, and no buffer is too small. -/
structure Stocked (l : BufferLoader) : Prop where
  idle : l.lifetime ≠ .opened → l.hostBufferEntry = none
  size : ∀ entry ∈ l.hostBufferEntry, l.hostBufferSize ≤ entry.size

theorem stocked_of_none {l : BufferLoader} (hentry : l.hostBufferEntry = none) : Stocked l where
  idle := fun _ => hentry
  size := fun _ he => absurd (hentry.symm.trans he) nofun

theorem stocked_of_some {l : BufferLoader} {entry : HostBufferCacheEntry}
    (hopened : l.lifetime = .opened) (hentry : l.hostBufferEntry = some entry)
    (hsize : l.hostBufferSize ≤ entry.size) : Stocked l := by
  refine ⟨fun hne => absurd hopened hne, fun entry' he => ?_⟩
  obtain rfl := Option.some.inj (hentry.symm.trans he)
  exact hsize

theorem Moved.stocked (h : Moved s a s') (hs : ∀ l ∈ s.loaders, Stocked l) :
    ∀ l ∈ s'.loaders, Stocked l := by
  have hnew : ∀ l, Stocked l → ∀ l' ∈ s.loaders ++ [l], Stocked l' := fun l hl =>
    List.forall_mem_append.mpr ⟨hs, List.forall_mem_singleton.mpr hl⟩
  have hset : ∀ handle l, Stocked l → ∀ l' ∈ s.loaders.set handle l, Stocked l' := by
    intro handle l hl l' hl'
    rcases List.mem_or_eq_of_mem_set hl' with hl' | rfl
    · exact hs l' hl'
    · exact hl
  cases h with
  | opened _ _ hentry => exact hnew _ (stocked_of_none hentry)
  | reused _ hopened hentry hsize => exact hnew _ (stocked_of_some hopened hentry hsize)
  | allocated _ hopened hentry hsize => exact hnew _ (stocked_of_some hopened hentry hsize)
  | closed _ _ _ _ hentry => exact hset _ _ (stocked_of_none hentry)
  | exited hl hclosed _ hentry _ =>
      have hidle := (hs _ (List.mem_of_getElem? hl)).idle
      exact hset _ _ (stocked_of_none (hentry.trans (hidle (hclosed ▸ nofun))))
  | cleanup => exact hs
  | deleted => exact hs

/-- Each buffer ever allocated is one entry, or one call of a deleter. -/
structure Inventory (s : HostBuffers) : Prop where
  numbered : (s.entries.map HostBufferCacheEntry.ptr
    ++ s.deletions.map fun d => d.entry.ptr).Perm (List.range s.allocated)
  loaders : ∀ l ∈ s.loaders, Stocked l

theorem inventory_init : Inventory {} where
  numbered := .refl _
  loaders := nofun

theorem Moved.inventory (h : Moved s a s') (hs : s.Inventory) : s'.Inventory := by
  refine ⟨?_, h.stocked hs.loaders⟩
  cases h.passed with
  | kept hentries hdeletions hallocated =>
      rw [hdeletions, hallocated]
      exact ((hentries.map _).append_right _).trans hs.numbered
  | made hptr _ _ _ hentries hdeletions hallocated =>
      rw [hdeletions, hallocated, List.range_succ, ← hptr]
      refine ((hentries.map _).append_right _).trans ?_
      rw [List.map_cons, List.cons_append]
      exact (hs.numbered.cons _).trans (hptr ▸ (List.perm_append_singleton ..).symm)
  | deleted hentries hdeletions hallocated =>
      have hnumbered := hs.numbered
      rw [hentries, List.map_cons, List.cons_append] at hnumbered
      rw [hdeletions, hallocated, List.map_append, List.map_singleton, ← List.append_assoc]
      exact (List.perm_append_singleton ..).trans hnumbered

/-- Counted over the entries and the calls of deleters. -/
theorem Inventory.count (h : s.Inventory) {ptr : ℕ} (hlt : ptr < s.allocated) :
    s.entries.countP (fun entry => entry.ptr = ptr)
      + s.deletions.countP (fun d => d.entry.ptr = ptr) = 1 := by
  have hone : (List.range s.allocated).countP (fun x => decide (x = ptr)) = 1 :=
    List.count_eq_one_of_mem List.nodup_range (List.mem_range.mpr hlt)
  have hcount := h.numbered.countP_eq fun x => decide (x = ptr)
  rw [List.countP_append, List.countP_map, List.countP_map, hone] at hcount
  exact hcount

theorem countP_held {loaders : List BufferLoader} (h : ∀ l ∈ loaders, Stocked l) (ptr : ℕ) :
    (held loaders).countP (fun entry => entry.ptr = ptr)
      = loaders.countP (fun l => l.Holds ptr) := by
  rw [held, ← List.filterMap_eq_flatMap_toList, List.countP_filterMap]
  refine List.countP_congr fun l hl => ?_
  have hidle := (h l hl).idle
  cases hentry : l.hostBufferEntry with
  | none => simp [BufferLoader.Holds, hentry]
  | some entry =>
      have hopened : l.lifetime = .opened := by
        by_contra hne
        cases hentry.symm.trans (hidle hne)
      simp [BufferLoader.Holds, hentry, hopened]

/-- At all times. -/
theorem Inventory.oneOwner (h : s.Inventory) : s.OneOwner := by
  refine ⟨fun ptr hregistered => ?_, fun l hl => (h.loaders l hl).size⟩
  obtain ⟨hlt, hkept⟩ := hregistered
  have hcount := h.count hlt
  have hnone : s.deletions.countP (fun d => d.entry.ptr = ptr) = 0 :=
    List.countP_eq_zero.mpr fun d hd => by simpa using hkept d hd
  rw [hnone, Nat.add_zero, entries_eq, List.countP_append, countP_held h.loaders] at hcount
  exact hcount

/-! ## Safe moves -/

/-- All that is made can still be deleted by the loader that made it, and all that was deleted
was. -/
structure Attended (s : HostBuffers) : Prop where
  entries : ∀ entry ∈ s.entries, ∃ l ∈ s.loaders[entry.deleter]?, l.lifetime ≠ .destroyed
  deletions : ∀ d ∈ s.deletions, ∃ l ∈ d.captured, l.lifetime ≠ .destroyed
  held : s.destroying = true → held s.loaders = []

theorem attended_init : Attended {} where
  entries := nofun
  deletions := nofun
  held := nofun

theorem Moved.attended (h : Moved s a s') (hsafe : s.Safe a) (hinventory : s.Inventory)
    (hs : s.Attended) : s'.Attended := by
  -- a loader whose entry is still there does not end
  have hlive : ∀ entry ∈ s.entries, ∃ l ∈ s'.loaders[entry.deleter]?, l.lifetime ≠ .destroyed := by
    intro entry hentry
    obtain ⟨l, hl, halive⟩ := hs.entries entry hentry
    obtain ⟨l', hl', hdestroyed⟩ := h.lifetime hl
    refine ⟨l', hl', fun hgone => ?_⟩
    rcases hdestroyed.mp hgone with hgone | rfl
    · exact halive hgone
    · exact hsafe entry hentry rfl
  have hheld : s'.destroying = true → HostBuffers.held s'.loaders = [] := by
    intro hdestroying
    rw [h.held_eq hdestroying]
    rcases h.destroying_iff.mp hdestroying with hdestroying | rfl
    · exact hs.held hdestroying
    · refine List.flatMap_eq_nil_iff.mpr fun l hl => ?_
      have hnone : l.hostBufferEntry = none := by
        by_cases hopened : l.lifetime = .opened
        · exact hsafe l hl hopened
        · exact (hinventory.loaders l hl).idle hopened
      rw [hnone, Option.toList_none]
  cases h.passed with
  | kept hentries hdeletions _ =>
      refine ⟨fun entry hentry => hlive entry (hentries.mem_iff.mp hentry), ?_, hheld⟩
      rw [hdeletions]
      exact hs.deletions
  | @made new l _ hloaders hdeleter hopened hentries hdeletions _ =>
      refine ⟨fun entry hentry => ?_, ?_, hheld⟩
      · rcases List.mem_cons.mp (hentries.mem_iff.mp hentry) with rfl | hentry
        · refine ⟨l, ?_, by simp [hopened]⟩
          rw [hloaders, hdeleter]
          exact List.getElem?_concat_length
        · exact hlive entry hentry
      · rw [hdeletions]
        exact hs.deletions
  | @deleted entry hentries hdeletions _ =>
      refine ⟨fun entry hentry => hlive entry (hentries ▸ List.mem_cons_of_mem _ hentry), ?_, hheld⟩
      intro d hd
      rw [hdeletions] at hd
      rcases List.mem_append.mp hd with hd | hd
      · exact hs.deletions d hd
      · obtain rfl := List.mem_singleton.mp hd
        exact hs.entries entry (hentries ▸ List.mem_cons_self)

theorem Attended.deleted (h : s.Attended) (hs : s.Inventory) (hdone : s.Finished) : s.Deleted := by
  refine ⟨fun ptr hlt => ?_, h.deletions⟩
  have hcount := hs.count hlt
  rw [entries_eq, hdone.2, h.held hdone.1] at hcount
  simpa using hcount

/-! ## Unsafe moves -/

/-- A buffer cannot be deleted by a living loader any more, or was not, or will not be. -/
inductive Lost (s : HostBuffers) : Prop
  | entry {entry : HostBufferCacheEntry} {l : BufferLoader} : entry ∈ s.entries →
      s.loaders[entry.deleter]? = some l → l.lifetime = .destroyed → Lost s
  | deletion {d : Deletion} {l : BufferLoader} : d ∈ s.deletions → d.captured = some l →
      l.lifetime = .destroyed → Lost s
  | inUse : s.destroying = true → held s.loaders ≠ [] → Lost s

theorem Moved.lost (h : Moved s a s') (hs : s.Lost) : s'.Lost := by
  cases hs with
  | @entry entry l hentry hl hgone =>
      obtain ⟨l', hl', hdestroyed⟩ := h.lifetime hl
      have hgone' := hdestroyed.mpr (.inl hgone)
      cases h.passed with
      | kept hentries => exact .entry (hentries.mem_iff.mpr hentry) hl' hgone'
      | made _ _ _ _ hentries =>
          exact .entry (hentries.mem_iff.mpr (List.mem_cons_of_mem _ hentry)) hl' hgone'
      | deleted hentries hdeletions =>
          rw [hentries] at hentry
          rcases List.mem_cons.mp hentry with rfl | hentry
          · refine @Lost.deletion s' { entry, captured := s.loaders[entry.deleter]? } l ?_ hl hgone
            rw [hdeletions]
            exact List.mem_append_right _ (List.mem_singleton_self _)
          · exact .entry hentry hl' hgone'
  | deletion hd hl hgone =>
      refine .deletion ?_ hl hgone
      cases h.passed with
      | kept _ hdeletions => exact hdeletions ▸ hd
      | made _ _ _ _ _ hdeletions => exact hdeletions ▸ hd
      | deleted _ hdeletions => exact hdeletions ▸ List.mem_append_left _ hd
  | inUse hdestroying hheld =>
      have hdestroying' := h.destroying_iff.mpr (.inl hdestroying)
      exact .inUse hdestroying' (h.held_eq hdestroying' ▸ hheld)

theorem Moved.lost_of_not_safe (h : Moved s a s') (hnot : ¬ s.Safe a) : s'.Lost := by
  cases h with
  | @exited handle l l' hl _ hdestroyed hentry =>
      obtain ⟨entry, hmem, rfl⟩ : ∃ entry ∈ s.entries, entry.deleter = handle := by
        by_contra hnone
        exact hnot fun entry hmem heq => hnone ⟨entry, hmem, heq⟩
      refine .entry ?_ (List.getElem?_set_self (List.getElem?_eq_some_iff.mp hl).1) hdestroyed
      rw [entries_eq, held, flatMap_set_eq hl (congrArg Option.toList hentry)]
      exact hmem
  | cleanup =>
      refine .inUse rfl fun hnil => hnot fun l hl _ => ?_
      exact Option.toList_eq_nil_iff.mp (List.flatMap_eq_nil_iff.mp hnil l hl)
  | _ => exact absurd trivial hnot

theorem Lost.not_deleted (h : s.Lost) (hs : s.Inventory) : ¬ s.Deleted := by
  intro hdeleted
  have hnone : s.entries = [] := by
    refine List.eq_nil_iff_forall_not_mem.mpr fun entry hentry => ?_
    have hlt : entry.ptr < s.allocated := List.mem_range.mp
      (hs.numbered.mem_iff.mp (List.mem_append_left _ (List.mem_map_of_mem hentry)))
    have hcount := hs.count hlt
    rw [hdeleted.once entry.ptr hlt, Nat.add_eq_right] at hcount
    exact absurd rfl (of_decide_eq_false
      (Bool.eq_false_of_not_eq_true (List.countP_eq_zero.mp hcount entry hentry)))
  cases h with
  | entry hentry =>
      rw [hnone] at hentry
      cases hentry
  | deletion hd hl hgone =>
      obtain ⟨l, hl', halive⟩ := hdeleted.alive _ hd
      obtain rfl := Option.some.inj (hl.symm.trans hl')
      exact halive hgone
  | inUse _ hheld => exact hheld (List.append_eq_nil_iff.mp hnone).2

/-! ## Runs -/

theorem exec_inventory {acts : List Move}
    (h : exec (next pageSize useInternalMemoryRegister true) acts {} = some s) : s.Inventory := by
  refine (Run.of_exec h).invariant ?_ inventory_init
  rintro s₁ s₂ hs ⟨a, hstep⟩
  exact (next_moved hstep).inventory hs

theorem exec_lost {acts : List Move}
    (h : exec (next pageSize useInternalMemoryRegister true) acts s = some s') (hs : s.Lost) :
    s'.Lost := by
  refine (Run.of_exec h).invariant ?_ hs
  rintro s₁ s₂ hs ⟨a, hstep⟩
  exact (next_moved hstep).lost hs

variable (pageSize useInternalMemoryRegister) in
/-- All moves of the run are safe. -/
def SafeThroughout (acts : List Move) : Prop :=
  ∀ acts' a s', acts' ++ [a] <+: acts →
    exec (next pageSize useInternalMemoryRegister true) acts' {} = some s' → s'.Safe a

variable (pageSize useInternalMemoryRegister) in
def OneOwnerThroughout (acts : List Move) : Prop :=
  ∀ acts' s', acts' <+: acts →
    exec (next pageSize useInternalMemoryRegister true) acts' {} = some s' → s'.OneOwner

theorem exec_attended {acts : List Move}
    (h : exec (next pageSize useInternalMemoryRegister true) acts {} = some s)
    (hsafe : SafeThroughout pageSize useInternalMemoryRegister acts) : s.Attended := by
  induction acts using List.reverseRecOn generalizing s with
  | nil =>
      obtain rfl := Option.some.inj h
      exact attended_init
  | append_singleton acts a ih =>
      obtain ⟨s₁, hacts, hstep⟩ := exec_concat.mp h
      have hs₁ := ih hacts fun acts' a' s' hle => hsafe acts' a' s' (hle.trans (List.prefix_append ..))
      exact (next_moved hstep).attended (hsafe acts a s₁ (List.prefix_refl _) hacts)
        (exec_inventory hacts) hs₁

end

end HostBuffers

/-- **Each buffer has one owner, and is deleted once by a loader that is still there, exactly if
all moves are safe**: no thread ends as long as a buffer its loader made is around, and no buffer
is in use when the cache is destroyed. -/
theorem hostBuffers_exact_iff {pageSize : ℕ} {useInternalMemoryRegister : Bool}
    {acts : List HostBuffers.Move} {s : HostBuffers}
    (h : exec (HostBuffers.next pageSize useInternalMemoryRegister true) acts {} = some s)
    (hdone : s.Finished) :
    HostBuffers.OneOwnerThroughout pageSize useInternalMemoryRegister acts ∧ s.Deleted ↔
      HostBuffers.SafeThroughout pageSize useInternalMemoryRegister acts := by
  have hinventory := HostBuffers.exec_inventory h
  constructor
  · rintro ⟨-, hdeleted⟩ acts' a s₁ hle hs₁
    obtain ⟨rest, rfl⟩ := hle
    obtain ⟨s₂, hs₂, hrest⟩ := exec_of_append h
    obtain ⟨s₁', hs₁', hstep⟩ := exec_concat.mp hs₂
    obtain rfl := Option.some.inj (hs₁.symm.trans hs₁')
    by_contra hnot
    have hlost := HostBuffers.exec_lost hrest ((HostBuffers.next_moved hstep).lost_of_not_safe hnot)
    exact hlost.not_deleted hinventory hdeleted
  · intro hsafe
    refine ⟨fun acts' s' _ hs' => (HostBuffers.exec_inventory hs').oneOwner, ?_⟩
    exact (HostBuffers.exec_attended h hsafe).deleted hinventory hdone

namespace HostBuffers

/-- One thread with three reads of a page in flight. -/
def onePage : OpenArgs where
  rank := 0
  worldSize := 1
  bufferSize := 4096
  chunkSize := 4096
  numThreads := 1
  ioDepth := 3
  backend := Backend.URING
  tensorOffsets := [(0, 100), (0, 110)]

/-- Two loaders with one buffer; the thread of the second one ends. -/
def handedOn : List Move :=
  [.open onePage 1, .close 0, .open onePage 1, .close 1, .exit 1, .cleanup, .delete]

end HostBuffers

theorem hostBuffers_exact_handedOn :
    ∃ s, exec (HostBuffers.next 4096 false true) HostBuffers.handedOn {} = some s ∧
      HostBuffers.OneOwnerThroughout 4096 false HostBuffers.handedOn ∧ s.Deleted := by
  refine ⟨_, rfl, (hostBuffers_exact_iff rfl ⟨rfl, rfl⟩).mpr ?_⟩
  have hsafe : ∀ n < 7, ∀ a ∈ HostBuffers.handedOn[n]?,
      ∀ s' ∈ exec (HostBuffers.next 4096 false true) (HostBuffers.handedOn.take n) {},
        s'.Safe a := by
    decide +kernel
  intro acts' a s' hle hs'
  obtain ⟨htake, hplace⟩ := take_of_concat_prefix hle
  exact hsafe _ (List.getElem?_eq_some_iff.mp hplace).1 a hplace s' (htake ▸ hs')

/-- A loader is closed, its thread ends, and then the cache calls the deleter it made. -/
theorem deleter_dangles : ¬ ∀ (pageSize : ℕ) (useInternalMemoryRegister : Bool)
    (acts : List HostBuffers.Move) (s : HostBuffers),
    exec (HostBuffers.next pageSize useInternalMemoryRegister true) acts {} = some s →
    s.Finished →
    HostBuffers.OneOwnerThroughout pageSize useInternalMemoryRegister acts ∧ s.Deleted := by
  intro h
  obtain ⟨-, hdeleted⟩ := h 4096 false
    [.open HostBuffers.onePage 1, .close 0, .exit 0, .cleanup, .delete] _ rfl ⟨rfl, rfl⟩
  obtain ⟨l, hl, halive⟩ := hdeleted.alive _ (List.mem_singleton_self _)
  obtain rfl := Option.some.inj hl
  exact halive rfl

end InstantTensor
