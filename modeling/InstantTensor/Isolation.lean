/-
# `InstantTensor.Isolation` — what a capsule holds

The pointer in a capsule is always the one that the loader of the handle computed for the request
of the call, whatever is called on other handles in between.  The device is not: the manager keeps
one device index for all handles and `open` overwrites it, so a capsule names the device of the
last `open`.  With loaders on two devices these differ, and `isolated_iff` says exactly when
they do not.
-/
import InstantTensor.Handles

namespace InstantTensor

/-! ## Handles apart -/

/-- The device of the last `open`; the calls are newest first. -/
def lastDevice : List Call → Option ℤ
  | [] => none
  | .open c :: _ => some c.deviceIdx
  | _ :: calls => lastDevice calls

/-- `get_dl_tensor` returned a capsule. -/
def Record.Gave (r : Record) (h i : ℤ) (tensor : DLTensor) : Prop :=
  (∃ size, r.call = .getDLTensor h i size) ∧ r.result = .capsule tensor

namespace System

/-- Handle `h` was opened with that device. -/
def OpenedOn (s : System) (h deviceIdx : ℤ) : Prop :=
  ∃ (k : ℕ) (t : LoaderThread), h = k ∧ s.threads[k]? = some t ∧ t.deviceIdx = deviceIdx

/-- Each capsule holds the pointer that the loader of its handle computed for the request of the
call, the only one with its number, and the device the handle was opened with. -/
structure Isolated (s : System) : Prop where
  pointer : ∀ r ∈ s.log, ∀ h i d, r.Gave h i d → ∃ (k : ℕ) (t : LoaderThread) (id : ℤ), h = k ∧
    s.threads[k]? = some t ∧ r.reqId = some id ∧
      t.computed.filter (fun c => c.1.id = id) =
        [({ id, op := .GET_TENSOR_PTR (toSizeT i) }, .pointer d.data)]
  device : ∀ r ∈ s.log, ∀ h i d, r.Gave h i d → s.OpenedOn h d.deviceId

/-! ## The calls that are over -/

/-- What is true of a call that is over, and stays so. -/
structure Settled (s : System) (older : List Record) (r : Record) : Prop where
  answer : ∀ h i d, r.Gave h i d → ∃ (k : ℕ) (t : LoaderThread) (id : ℤ), h = k ∧
    s.threads[k]? = some t ∧ r.reqId = some id ∧
      ({ id, op := .GET_TENSOR_PTR (toSizeT i) }, .pointer d.data) ∈ t.computed
  device : ∀ h i d, r.Gave h i d → lastDevice (older.map Record.call) = some d.deviceId
  opened : ∀ c h, r.call = .open c → r.result = .returned h → s.OpenedOn h c.deviceIdx

structure History (s : System) : Prop where
  once : ∀ t ∈ s.threads, (t.computed.map fun c => c.1.id).Nodup
  settled : ∀ r older, r :: older <:+ s.log → s.Settled older r

/-- The calls that have begun, newest first. -/
def begun (s : System) : List Call := (s.pending.map Pending.call).toList ++ s.log.map Record.call

/-- The manager holds the device of the last `open`. -/
structure Current (s : System) : Prop where
  device : ∀ m, s.manager = some m → lastDevice s.begun = some m.deviceIdx
  opening : ∀ p c, s.pending = some p → p.call = .open c → s.OpenedOn p.loaderHandle c.deviceIdx

/-- Nothing about a loader is forgotten. -/
def Grows (s s' : System) : Prop :=
  ∀ (k : ℕ) t, s.threads[k]? = some t → ∃ t', s'.threads[k]? = some t' ∧
    t'.deviceIdx = t.deviceIdx ∧ t.computed ⊆ t'.computed

section
variable {pageSize : ℕ} {s s' : System} {a : Move}

theorem OpenedOn.mono {h deviceIdx : ℤ} (hopened : s.OpenedOn h deviceIdx) (hgrows : s.Grows s') :
    s'.OpenedOn h deviceIdx := by
  obtain ⟨k, t, hk, ht, hdevice⟩ := hopened
  obtain ⟨t', ht', hsame, -⟩ := hgrows k t ht
  exact ⟨k, t', hk, ht', hsame.trans hdevice⟩

theorem opened_of_map {k : ℕ} {deviceIdx : ℤ}
    (h : s.threads[k]?.map LoaderThread.deviceIdx = some deviceIdx) : s.OpenedOn k deviceIdx := by
  obtain ⟨t, ht, hdevice⟩ := Option.map_eq_some_iff.mp h
  exact ⟨k, t, rfl, ht, hdevice⟩

theorem Settled.mono {older : List Record} {r : Record} (h : s.Settled older r)
    (hgrows : s.Grows s') : s'.Settled older r := by
  refine ⟨?_, h.device, fun c i hc hr => (h.opened c i hc hr).mono hgrows⟩
  intro i j d hgave
  obtain ⟨k, t, id, hk, ht, hid, hmem⟩ := h.answer i j d hgave
  obtain ⟨t', ht', -, hsub⟩ := hgrows k t ht
  exact ⟨k, t', id, hk, ht', hid, hsub hmem⟩

/-- A call that returned neither a capsule nor a handle. -/
theorem settled_of_other {older : List Record} {r : Record} (hcapsule : ∀ d, r.result ≠ .capsule d)
    (hreturned : ∀ h, r.result ≠ .returned h) : s.Settled older r where
  answer := fun _ _ d hgave => absurd hgave.2 (hcapsule d)
  device := fun _ _ d hgave => absurd hgave.2 (hcapsule d)
  opened := fun _ h _ hr => absurd hr (hreturned h)

theorem History.grow (h : s.History) (hgrows : s.Grows s') (hlog : s'.log = s.log)
    (honce : ∀ t ∈ s'.threads, (t.computed.map fun c => c.1.id).Nodup) : s'.History where
  once := honce
  settled := by
    intro r older hsuffix
    rw [hlog] at hsuffix
    exact (h.settled r older hsuffix).mono hgrows

theorem History.append (h : s.History) {r : Record} (hgrows : s.Grows s') (hlog : s'.log = r :: s.log)
    (honce : ∀ t ∈ s'.threads, (t.computed.map fun c => c.1.id).Nodup)
    (hr : s'.Settled s.log r) : s'.History where
  once := honce
  settled := by
    intro r' older hsuffix
    rw [hlog, List.suffix_cons_iff] at hsuffix
    rcases hsuffix with heq | hsuffix
    · obtain ⟨rfl, rfl⟩ := List.cons_eq_cons.mp heq
      exact hr
    · exact (h.settled r' older hsuffix).mono hgrows

/-! ## Loaders grow -/

theorem Grows.refl (s : System) : s.Grows s :=
  fun _ t ht => ⟨t, ht, rfl, List.Subset.refl _⟩

theorem Grows.append {t : LoaderThread} (hthreads : s'.threads = s.threads ++ [t]) : s.Grows s' := by
  intro k u hu
  obtain ⟨hlt, -⟩ := List.getElem?_eq_some_iff.mp hu
  refine ⟨u, ?_, rfl, List.Subset.refl _⟩
  rw [hthreads, List.getElem?_append_left hlt]
  exact hu

theorem Grows.set {k : ℕ} {t t' : LoaderThread} (ht : s.threads[k]? = some t)
    (hthreads : s'.threads = s.threads.set k t') (hdevice : t'.deviceIdx = t.deviceIdx)
    (hsub : t.computed ⊆ t'.computed) : s.Grows s' := by
  intro j u hu
  rw [hthreads]
  by_cases hj : k = j
  · subst hj
    obtain rfl := Option.some.inj (ht.symm.trans hu)
    obtain ⟨hlt, -⟩ := List.getElem?_eq_some_iff.mp ht
    exact ⟨t', List.getElem?_set_self hlt, hdevice, hsub⟩
  · exact ⟨u, by rw [List.getElem?_set_ne hj]; exact hu, rfl, List.Subset.refl _⟩

theorem Grows.modify {k : ℕ} {f : LoaderThread → LoaderThread}
    (hthreads : s'.threads = s.threads.modify k f) (hdevice : ∀ t, (f t).deviceIdx = t.deviceIdx)
    (hsame : ∀ t, (f t).computed = t.computed) : s.Grows s' := by
  intro j t ht
  refine ⟨if k = j then f t else t, ?_, ?_, ?_⟩
  · rw [hthreads, List.getElem?_modify, ht]
    rfl
  · split
    · exact hdevice t
    · rfl
  · split
    · rw [hsame]
      exact List.Subset.refl _
    · exact List.Subset.refl _

theorem Turned.grows (hturned : Turned pageSize s a s') : s.Grows s' := by
  cases hturned with
  | uninitialized => exact .refl s
  | openRaised => exact .append rfl
  | opening => exact .append rfl
  | nullQueue => exact .refl s
  | sent => exact .modify rfl (fun _ => rfl) (fun _ => rfl)
  | threw => exact .refl s
  | served ht _ hdevice _ _ hcomputed =>
      refine .set ht rfl hdevice ?_
      rw [hcomputed]
      exact List.subset_cons_self ..
  | dropped _ _ _ ht => exact .set ht rfl rfl (List.Subset.refl _)
  | finished _ _ _ ht => exact .set ht rfl rfl (List.Subset.refl _)

/-- A thread never answers two requests with one number. -/
theorem Turned.once (hturned : Turned pageSize s a s') (h : s.Coherent)
    (honce : ∀ t ∈ s.threads, (t.computed.map fun c => c.1.id).Nodup) :
    ∀ t ∈ s'.threads, (t.computed.map fun c => c.1.id).Nodup := by
  have hset : ∀ (k : ℕ) t', (t'.computed.map fun c => c.1.id).Nodup →
      ∀ t ∈ s.threads.set k t', (t.computed.map fun c => c.1.id).Nodup := by
    intro k t' ht' t ht
    rcases List.mem_or_eq_of_mem_set ht with ht | rfl
    · exact honce t ht
    · exact ht'
  have happend : ∀ t', t'.computed = [] →
      ∀ t ∈ s.threads ++ [t'], (t.computed.map fun c => c.1.id).Nodup := by
    intro t' hnil t ht
    rcases List.mem_append.mp ht with ht | ht
    · exact honce t ht
    · rw [List.mem_singleton.mp ht, hnil]
      exact List.nodup_nil
  cases hturned with
  | uninitialized => exact honce
  | openRaised => exact happend _ rfl
  | opening => exact happend _ rfl
  | nullQueue => exact honce
  | @sent c i op m e k =>
      intro t ht
      obtain ⟨j, hj⟩ := List.getElem?_of_mem ht
      rw [List.getElem?_modify] at hj
      obtain ⟨t₀, ht₀, rfl⟩ := Option.map_eq_some_iff.mp hj
      have h₀ := honce t₀ (List.mem_of_getElem? ht₀)
      split
      · exact h₀
      · exact h₀
  | threw => exact honce
  | @served k _ t t' q _ reply ht hin _ _ _ hcomputed =>
      refine hset k t' ?_
      rw [hcomputed, List.map_cons, List.nodup_cons]
      refine ⟨?_, honce t (List.mem_of_getElem? ht)⟩
      intro hmem
      obtain ⟨c, hc, hid⟩ := List.mem_map.mp hmem
      have hlt := (h.threads k t ht).behind c hc q (by rw [hin]; exact List.mem_cons_self)
      exact absurd hid hlt.ne
  | dropped _ _ _ ht =>
      have hsame := honce _ (List.mem_of_getElem? ht)
      exact hset _ _ hsame
  | finished _ _ _ ht =>
      have hsame := honce _ (List.mem_of_getElem? ht)
      exact hset _ _ hsame

/-- A call other than `open` leaves the last device. -/
theorem lastDevice_cons {c : Call} {h : ℤ} {op : Op} (hc : request c = some (h, op))
    (calls : List Call) : lastDevice (c :: calls) = lastDevice calls := by
  cases c with
  | «open» c => cases hc
  | _ => rfl

/-- The call that is over took the answer to its own request. -/
theorem settled_of_finished (h : s.Coherent) (hcurrent : s.Current) {p : Pending}
    {m m' : LoaderManager} {k : ℕ} {t : LoaderThread} {r : RPCResponse} {rest : List RPCResponse}
    {result : CallResult} (hp : s.pending = some p) (hm : s.manager = some m)
    (hk : (m.lookup p.loaderHandle).queues = some k) (ht : s.threads[k]? = some t)
    (hout : t.outputQueue = r :: rest) (hid : r.id = p.reqId)
    (hfinished : Finished m p r.result m' result) :
    s.Settled s.log { call := p.call, reqId := some p.reqId, result } := by
  have hk := h.pending_thread hp hm hk
  have hanswered := (h.threads k t ht).answered r (by rw [hout]; exact List.mem_cons_self)
  generalize hreply : r.result = reply at hfinished hanswered
  cases hfinished with
  | @opened c _ hcall =>
      refine ⟨?_, ?_, ?_⟩
      · intro i j d hgave
        cases hgave.2
      · intro i j d hgave
        cases hgave.2
      · intro c' i hc' hi
        cases hi
        exact hcurrent.opening p c' hp hc'
  | @capsule i j size ptr hcall =>
      refine ⟨?_, ?_, ?_⟩
      · intro i' j' d hgave
        obtain ⟨⟨size', hcall'⟩, hd⟩ := hgave
        cases hcall.symm.trans hcall'
        cases hd
        obtain ⟨⟨id, op⟩, hmem, hrid, hask⟩ := hanswered
        obtain rfl : op = _ := hask p i _ hp (by rw [hcall]; rfl)
        have hhandle := (h.inProgress p hp).2 i _ (by rw [hcall]; rfl)
        refine ⟨k, t, p.reqId, hhandle.symm.trans hk, ht, rfl, ?_⟩
        rw [← hid, ← hrid]
        exact hmem
      · intro i' j' d hgave
        cases hgave.2
        have hdevice := hcurrent.device m hm
        rw [begun, hp] at hdevice
        have hsame := lastDevice_cons (c := p.call) (by rw [hcall]; rfl) (s.log.map Record.call)
        exact hsame.symm.trans hdevice
      · intro c' i' hc' hi
        cases hi
  | badAnyCast => exact settled_of_other (by simp) (by simp)
  | closed => exact settled_of_other (by simp) (by simp)

/-- What a turn adds to the history. -/
theorem Turned.history (hturned : Turned pageSize s a s') (h : s.Coherent) (hcurrent : s.Current)
    (hs : s.History) : s'.History := by
  have hgrows := hturned.grows
  have honce := hturned.once h hs.once
  cases hturned with
  | uninitialized => exact hs.append hgrows rfl honce (settled_of_other (by simp) (by simp))
  | openRaised => exact hs.append hgrows rfl honce (settled_of_other (by simp) (by simp))
  | opening => exact hs.grow hgrows rfl honce
  | nullQueue => exact hs.append hgrows rfl honce (settled_of_other (by simp) (by simp))
  | sent => exact hs.grow hgrows rfl honce
  | threw => exact hs.grow hgrows rfl honce
  | served => exact hs.grow hgrows rfl honce
  | dropped => exact hs.grow hgrows rfl honce
  | finished hp hm hk ht hout hid hfinished =>
      have hr := settled_of_finished h hcurrent hp hm hk ht hout hid hfinished
      exact hs.append hgrows rfl honce (hr.mono hgrows)

theorem Turned.current (hturned : Turned pageSize s a s') (h : s.Coherent) (hcurrent : s.Current)
    (hcrashed : s'.crashed = false) : s'.Current := by
  have hgrows := hturned.grows
  have hopening : ∀ p c, s'.pending = some p → s.pending = some p → p.call = .open c →
      s'.OpenedOn p.loaderHandle c.deviceIdx :=
    fun p c _ hp hc => (hcurrent.opening p c hp hc).mono hgrows
  cases hturned with
  | uninitialized hidle hc hm =>
      refine ⟨?_, fun p c hp => hopening p c hp hp⟩
      intro m hm'
      cases hm.symm.trans hm'
  | openRaised hidle =>
      refine ⟨?_, fun p c hp => hopening p c hp hp⟩
      intro m hm
      obtain rfl := Option.some.inj hm
      simp only [begun, hidle]
      rfl
  | opening hidle =>
      refine ⟨?_, ?_⟩
      · intro m hm
        obtain rfl := Option.some.inj hm
        rfl
      · intro p c hp hc
        obtain rfl := Option.some.inj hp
        cases hc
        exact ⟨s.threads.length, { deviceIdx := _, inputQueue := _ }, h.iter,
          List.getElem?_concat_length, rfl⟩
  | nullQueue => cases hcrashed
  | sent hidle hc hm =>
      refine ⟨?_, ?_⟩
      · intro m' hm'
        obtain rfl := Option.some.inj hm'
        have hdevice := hcurrent.device _ hm
        simp only [begun, hidle] at hdevice
        rw [← hdevice]
        exact lastDevice_cons hc _
      · intro p c' hp hc'
        obtain rfl := Option.some.inj hp
        simp only at hc'
        rw [hc'] at hc
        cases hc
  | threw => cases hcrashed
  | served => exact ⟨hcurrent.device, fun p c hp => hopening p c hp hp⟩
  | dropped hp => exact ⟨hcurrent.device, fun p c hp => hopening p c hp hp⟩
  | finished hp hm hk ht hout hid hfinished =>
      refine ⟨?_, fun p c hp => by cases hp⟩
      intro m' hm'
      obtain rfl := Option.some.inj hm'
      obtain ⟨-, hsame, -⟩ := hfinished.frame
      rw [hsame, ← hcurrent.device _ hm, begun, begun, hp]
      rfl

theorem history_init : History {} where
  once := by simp
  settled := by
    intro r older hsuffix
    cases List.suffix_nil.mp hsuffix

theorem current_init : Current {} where
  device := by simp
  opening := by simp

/-- In every state reached, the calls that are over are settled. -/
theorem exec_history {acts : List Move} (h : exec (step pageSize) acts {} = some s) :
    s.History := by
  have hstep : ∀ s₁ s₂ : System, (s₁.History ∧ (s₁.crashed = false → s₁.Coherent ∧ s₁.Current)) →
      Step (step pageSize) s₁ s₂ →
        s₂.History ∧ (s₂.crashed = false → s₂.Coherent ∧ s₂.Current) := by
    intro s₁ s₂ hs hstep
    obtain ⟨a, ha⟩ := hstep
    obtain ⟨hcrashed, hturned⟩ := step_turned ha
    obtain ⟨hcoherent, hcurrent⟩ := hs.2 hcrashed
    refine ⟨hturned.history hcoherent hcurrent hs.1, ?_⟩
    intro hcrashed'
    exact ⟨hturned.coherent hcoherent hcrashed', hturned.current hcoherent hcurrent hcrashed'⟩
  have hinit : History {} ∧ (({} : System).crashed = false → Coherent {} ∧ Current {}) :=
    ⟨history_init, fun _ => ⟨coherent_init, current_init⟩⟩
  exact (Run.invariant hstep (Run.of_exec h) hinit).1

end

end System

/-- Handles are isolated exactly as long as each capsule is taken from a handle that was opened
with the device of the last `open`. -/
theorem isolated_iff {pageSize : ℕ} {acts : List Move} {s : System}
    (h : exec (System.step pageSize) acts {} = some s) :
    s.Isolated ↔ ∀ r older, r :: older <:+ s.log → ∀ i j d, r.Gave i j d →
      ∃ deviceIdx, lastDevice (older.map Record.call) = some deviceIdx ∧ s.OpenedOn i deviceIdx := by
  have hhistory := System.exec_history h
  constructor
  · intro hs r older hsuffix i j d hgave
    have hr := hsuffix.subset List.mem_cons_self
    exact ⟨d.deviceId, (hhistory.settled r older hsuffix).device i j d hgave,
      hs.device r hr i j d hgave⟩
  · intro hlast
    refine ⟨?_, ?_⟩
    · intro r hr i j d hgave
      obtain ⟨newer, older, hlog⟩ := List.append_of_mem hr
      obtain ⟨k, t, id, hk, ht, hid, hmem⟩ :=
        (hhistory.settled r older ⟨newer, hlog.symm⟩).answer i j d hgave
      have honce := hhistory.once t (List.mem_of_getElem? ht)
      exact ⟨k, t, id, hk, ht, hid, filter_key_eq honce hmem⟩
    · intro r hr i j d hgave
      obtain ⟨newer, older, hlog⟩ := List.append_of_mem hr
      have hsettled := hhistory.settled r older ⟨newer, hlog.symm⟩
      obtain ⟨deviceIdx, hdevice, hopened⟩ := hlast r older ⟨newer, hlog.symm⟩ i j d hgave
      obtain rfl := Option.some.inj (hdevice.symm.trans (hsettled.device i j d hgave))
      exact hopened

/-! ## Two loaders -/

/-- Two loaders are opened, and the first is asked for its tensor. -/
def openBoth (deviceIdx deviceIdx' : ℤ) : List Move :=
  [.call (.open (openOn deviceIdx)), .serve 0 (some 4096), .response,
    .call (.open (openOn deviceIdx')), .serve 1 (some 8192), .response,
    .call (.getDLTensor 0 0 4), .serve 0 (some 0), .response]

/-- With both on one device the capsule is right. -/
theorem isolated_oneDevice :
    ((exec (System.step 4096) (openBoth 1 1) {}).get (by decide +kernel)).Isolated := by
  refine (@isolated_iff 4096 (openBoth 1 1) _ (Option.some_get _).symm).mpr ?_
  intro r older hsuffix i j d hgave
  have hlog : ((exec (System.step 4096) (openBoth 1 1) {}).get (by decide +kernel)).log = [
      ⟨.getDLTensor 0 0 4, some 2, .capsule ⟨4208, 1, [4], [1]⟩⟩,
      ⟨.open (openOn 1), some 1, .returned 1⟩, ⟨.open (openOn 1), some 1, .returned 0⟩] := by
    decide +kernel
  rw [hlog] at hsuffix
  simp only [List.suffix_cons_iff, List.cons_eq_cons, List.suffix_nil, reduceCtorEq, or_false]
    at hsuffix
  rcases hsuffix with ⟨rfl, rfl⟩ | ⟨rfl, rfl⟩ | ⟨rfl, rfl⟩
  · obtain ⟨⟨size, hcall⟩, -⟩ := hgave
    cases hcall
    exact ⟨1, rfl, System.opened_of_map (k := 0) (by decide +kernel)⟩
  · cases hgave.2
  · cases hgave.2

/-- With loaders on the devices 0 and 1, the tensor of the first is labelled with device 1. -/
theorem isolated_twoDevices : ¬ ∀ (pageSize : ℕ) (acts : List Move) (s : System),
    exec (System.step pageSize) acts {} = some s → s.Isolated := by
  intro h
  have hisolated := h 4096 (openBoth 0 1)
    ((exec (System.step 4096) (openBoth 0 1) {}).get (by decide +kernel)) (Option.some_get _).symm
  obtain ⟨k, t, hk, ht, hdevice⟩ := hisolated.device
    ⟨.getDLTensor 0 0 4, some 2, .capsule ⟨4208, 1, [4], [1]⟩⟩ (by decide +kernel) 0 0 _
    ⟨⟨4, rfl⟩, rfl⟩
  obtain rfl : k = 0 := by omega
  have hfirst : (((exec (System.step 4096) (openBoth 0 1) {}).get (by decide +kernel)).threads[0]?.map
      LoaderThread.deviceIdx) = some 0 := by decide +kernel
  rw [ht, Option.map_some, hdevice] at hfirst
  cases hfirst

end InstantTensor
