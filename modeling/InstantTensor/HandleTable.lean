/-
# `InstantTensor.HandleTable` — the keys of the table of handles

The keys of `loader_handle_to_queue` should be the handles that `open` returned and `close` has
not closed.  They are not in two cases.  `open` registers its handle before the steps that can
fail and does not take it back.  And `call` looks its handle up with `operator[]`, which inserts
an entry for any other handle, with null queues.  `table_exact_iff` says that these two are all.
-/
import Mathlib.Data.List.Induction
import Mathlib.Tactic.IntervalCases
import InstantTensor.Handles

namespace InstantTensor

/-! ## The table between calls -/

/-- The handles that were returned by `open` and are not closed; the calls are newest first. -/
def live : List Record → List ℤ
  | [] => []
  | r :: log =>
      match r.call, r.result with
      | .open _, .returned h => h :: live log
      | .close h, .closed => (live log).filter (· ≠ h)
      | _, _ => live log

namespace System

/-- Between two calls the keys are the live handles, and a call on any other handle has raised
without making a request. -/
structure TableExact (s : System) : Prop where
  keys : s.pending = none → ∀ h, (s.table h).isSome ↔ h ∈ live s.log
  misuse : ∀ r older, r :: older <:+ s.log → ∀ h op, request r.call = some (h, op) →
    h ∉ live older → r.reqId = none ∧ ∃ e, r.result = .raised e

/-- The call goes well in `s`: `open` passes the steps that can fail, and another call names a
live handle, or there is no manager yet. -/
structure Sound (s : System) (c : Call) : Prop where
  group : ∀ o, c = .open o → ∃ group, o.group = .ok group
  handle : ∀ h op, request c = some (h, op) → h ∈ live s.log ∨ s.manager = none

/-- The table is exact whenever the run pauses. -/
def ExactThroughout (pageSize : ℕ) (acts : List Move) : Prop :=
  ∀ acts' s, acts' <+: acts → exec (step pageSize) acts' {} = some s → s.TableExact

/-- Every call of the run is sound where it begins. -/
def SoundThroughout (pageSize : ℕ) (acts : List Move) : Prop :=
  ∀ acts' c s, acts' ++ [.call c] <+: acts → exec (step pageSize) acts' {} = some s → s.Sound c

/-! ## Sound calls keep the table -/

/-- The keys during a call: a handle being opened is one already. -/
structure Keyed (s : System) : Prop where
  keys : ∀ h, (s.table h).isSome ↔ h ∈ live s.log ∨
    ∃ p c, s.pending = some p ∧ p.call = .open c ∧ p.loaderHandle = h
  misuse : ∀ r older, r :: older <:+ s.log → ∀ h op, request r.call = some (h, op) →
    h ∉ live older → r.reqId = none ∧ ∃ e, r.result = .raised e

section
variable {pageSize : ℕ} {s s' : System} {a : Move}

theorem Keyed.exact (h : s.Keyed) : s.TableExact where
  keys := by
    intro hidle i
    rw [h.keys i, hidle]
    simp
  misuse := h.misuse

theorem keyed_init : Keyed {} where
  keys := by
    intro i
    simp [table, live]
  misuse := by
    intro r older hsuffix
    cases List.suffix_nil.mp hsuffix

/-- A record is added that accounts for its call. -/
theorem misuse_cons {r₀ : Record} {log : List Record}
    (h : ∀ r older, r :: older <:+ log → ∀ i op, request r.call = some (i, op) →
      i ∉ live older → r.reqId = none ∧ ∃ e, r.result = .raised e)
    (hr₀ : ∀ i op, request r₀.call = some (i, op) → i ∉ live log →
      r₀.reqId = none ∧ ∃ e, r₀.result = .raised e) :
    ∀ r older, r :: older <:+ r₀ :: log → ∀ i op, request r.call = some (i, op) →
      i ∉ live older → r.reqId = none ∧ ∃ e, r.result = .raised e := by
  intro r older hsuffix
  rcases List.suffix_cons_iff.mp hsuffix with heq | hsuffix
  · obtain ⟨rfl, rfl⟩ := List.cons_eq_cons.mp heq
    exact hr₀
  · exact h r older hsuffix

/-- A call of a live handle finds its queue. -/
theorem Keyed.queue (h : s.Keyed) (hcoherent : s.Coherent) {m : LoaderManager} {i : ℤ}
    (hm : s.manager = some m) (hlive : i ∈ live s.log) : (m.lookup i).queues ≠ none := by
  obtain ⟨e, he⟩ := Option.isSome_iff_exists.mp ((h.keys i).mpr (.inl hlive))
  obtain ⟨k, -, -, hqueues⟩ := hcoherent.entry i e he
  rw [table, hm, Option.getD_some] at he
  rw [lookup_eq he, hqueues]
  exact Option.some_ne_none k

/-- The handle of a call in progress other than `open` is live. -/
theorem Keyed.pending_live (h : s.Keyed) (hcoherent : s.Coherent) {p : Pending} {i : ℤ} {op : Op}
    (hp : s.pending = some p) (hc : request p.call = some (i, op)) : i ∈ live s.log := by
  obtain ⟨⟨k, hk⟩, hhandle⟩ := hcoherent.inProgress p hp
  rw [hhandle i op hc] at hk
  rcases (h.keys i).mp (Option.isSome_of_eq_some hk) with hlive | ⟨p', c, hp', hcall, -⟩
  · exact hlive
  · obtain rfl := Option.some.inj (hp.symm.trans hp')
    rw [hcall] at hc
    cases hc

theorem live_other {r : Record} {log : List Record} (hreturned : ∀ h, r.result ≠ .returned h)
    (hclosed : r.result ≠ .closed) : live (r :: log) = live log := by
  obtain ⟨call, reqId, result⟩ := r
  cases result with
  | returned h => exact absurd rfl (hreturned h)
  | closed => exact absurd rfl hclosed
  | _ => cases call <;> rfl

/-- `open` registers the next handle. -/
theorem registered_isSome (m : LoaderManager) (c : OpenCall) (threads : ℕ) (latestReqId h : ℤ) :
    ((registered m c threads latestReqId).loaderHandleToQueue h).isSome ↔
      h = m.loaderIdIter ∨ (m.loaderHandleToQueue h).isSome := by
  simp only [registered, Function.update_apply]
  split
  · next heq => simp [heq]
  · next hne => simp [hne]

/-- A request is counted at its handle and the keys stay. -/
theorem isSome_update {table : ℤ → Option RPCHandle} {i : ℤ} {e e' : RPCHandle}
    (he : table i = some e) (j : ℤ) :
    (Function.update table i (some e') j).isSome = (table j).isSome := by
  rw [Function.update_apply]
  split
  · next heq =>
    rw [heq, he]
    rfl
  · rfl

/-- What the end of a call does to the keys, which it does to the live handles too. -/
theorem Finished.keys {p : Pending} {reply : Reply} {m m' : LoaderManager} {result : CallResult}
    {log : List Record} (h : Finished m p reply m' result)
    (hm : ∀ i, (m.loaderHandleToQueue i).isSome ↔ i ∈ live log ∨
      ∃ c, p.call = .open c ∧ p.loaderHandle = i) (i : ℤ) :
    (m'.loaderHandleToQueue i).isSome ↔
      i ∈ live ({ call := p.call, reqId := some p.reqId, result } :: log) := by
  cases h with
  | opened hcall =>
      rw [hm i, hcall]
      simp [live, eq_comm, or_comm]
  | capsule hcall =>
      rw [live_other (by simp) (by simp), hm i, hcall]
      simp
  | badAnyCast hcall =>
      rw [live_other (by simp) (by simp), hm i, hcall]
      simp
  | @closed h _ hcall =>
      simp only [Function.update_apply, hcall, live, List.mem_filter, decide_eq_true_eq]
      split
      · next heq => simp [heq]
      · next hne =>
        rw [hm i, hcall]
        simp [hne]

theorem Turned.keyed (hturned : Turned pageSize s a s') (hcoherent : s.Coherent) (h : s.Keyed)
    (hsound : ∀ c, a = .call c → s.Sound c) : s'.Keyed := by
  have hidle_keys : s.pending = none → ∀ i, (s.table i).isSome ↔ i ∈ live s.log :=
    h.exact.keys
  cases hturned with
  | uninitialized hidle hc hm =>
      refine ⟨?_, misuse_cons h.misuse fun _ _ _ _ => ⟨rfl, _, rfl⟩⟩
      intro i
      refine (h.keys i).trans ?_
      rw [System.raise, live_other (by simp) (by simp)]
  | @openRaised c e hidle hgroup =>
      obtain ⟨group, hok⟩ := (hsound (.open c) rfl).group c rfl
      cases hgroup.symm.trans hok
  | @opening c op hidle hgroup =>
      refine ⟨?_, h.misuse⟩
      intro i
      refine (registered_isSome _ _ _ _ i).trans ?_
      rw [show ((s.manager.getD {}).loaderHandleToQueue i).isSome = true ↔ _ from hidle_keys hidle i,
        or_comm]
      refine or_congr_right ?_
      constructor
      · rintro rfl
        exact ⟨_, c, rfl, rfl, rfl⟩
      · rintro ⟨p, c', hp, -, hi⟩
        obtain rfl := Option.some.inj hp
        exact hi.symm
  | @nullQueue c i op m m' hidle hc hm hqueues =>
      rcases (hsound c rfl).handle i op hc with hlive | hnone
      · exact absurd hqueues (h.queue hcoherent hm hlive)
      · cases hm.symm.trans hnone
  | @sent c j op m e k hidle hc hm he hk =>
      refine ⟨?_, h.misuse⟩
      intro i
      have hkeys := hidle_keys hidle i
      rw [table, hm, Option.getD_some] at hkeys
      simp only [table, Option.getD_some]
      rw [isSome_update he, hkeys]
      refine (or_iff_left ?_).symm
      rintro ⟨p, c', hp, hcall, -⟩
      obtain rfl := Option.some.inj hp
      simp only at hcall
      rw [hcall] at hc
      cases hc
  | threw => exact ⟨h.keys, h.misuse⟩
  | served => exact ⟨h.keys, h.misuse⟩
  | dropped => exact ⟨h.keys, h.misuse⟩
  | @finished p m m' k t r rest result hp hm hk ht hout hid hfinished =>
      refine ⟨?_, misuse_cons h.misuse fun i op hc hdead =>
        absurd (h.pending_live hcoherent hp hc) hdead⟩
      intro i
      have hkeys : ∀ i, (m.loaderHandleToQueue i).isSome ↔ i ∈ live s.log ∨
          ∃ c, p.call = .open c ∧ p.loaderHandle = i := by
        intro i
        have hi := h.keys i
        rw [table, hm, Option.getD_some, hp] at hi
        refine hi.trans (or_congr_right ?_)
        simp
      refine (hfinished.keys hkeys i).trans ?_
      simp

/-- As long as all calls are sound. -/
theorem exec_keyed {acts : List Move} (h : exec (step pageSize) acts {} = some s)
    (hsound : SoundThroughout pageSize acts) : s.Keyed := by
  induction acts using List.reverseRecOn generalizing s with
  | nil =>
      obtain rfl := Option.some.inj h
      exact keyed_init
  | append_singleton acts a ih =>
      obtain ⟨s₁, hacts, ha⟩ := exec_concat.mp h
      obtain ⟨hrunning, hturned⟩ := step_turned ha
      have hkeyed := ih hacts fun acts' c s' hle =>
        hsound acts' c s' (hle.trans (List.prefix_append ..))
      refine hturned.keyed (exec_coherent hacts hrunning) hkeyed ?_
      rintro c rfl
      exact hsound acts c s₁ (List.prefix_refl _) hacts

/-- A call that leaves the table exact was sound. -/
theorem Turned.sound {c : Call} (hturned : Turned pageSize s (.call c) s') (hcoherent : s.Coherent)
    (h : s.TableExact) (h' : s'.TableExact) : s.Sound c := by
  refine ⟨?_, ?_⟩
  · rintro o rfl
    cases hturned with
    | uninitialized _ hc => cases hc
    | openRaised hidle hgroup =>
        have hkey := (h'.keys hidle (s.manager.getD {}).loaderIdIter).mp
          ((registered_isSome _ _ _ _ _).mpr (.inl rfl))
        rw [live_other (by simp) (by simp)] at hkey
        have hfree := (h.keys hidle _).mpr hkey
        rw [hcoherent.next_free] at hfree
        cases hfree
    | opening _ hgroup => exact hgroup
    | nullQueue _ hc => cases hc
    | sent _ hc => cases hc
  · intro i op hc
    cases hturned with
    | uninitialized _ _ hm => exact .inr hm
    | openRaised => cases hc
    | opening => cases hc
    | nullQueue _ hc' =>
        left
        by_contra hdead
        cases hc.symm.trans hc'
        obtain ⟨hnone, -⟩ := h'.misuse _ _ (List.suffix_refl _) i op hc hdead
        cases hnone
    | sent hidle hc' hm he =>
        left
        cases hc.symm.trans hc'
        refine (h.keys hidle i).mp ?_
        rw [table, hm, Option.getD_some, he]
        rfl

end

end System

/-- The keys are exact throughout a run if and only if all its calls are sound. -/
theorem table_exact_iff {pageSize : ℕ} {acts : List Move} {s : System}
    (h : exec (System.step pageSize) acts {} = some s) :
    System.ExactThroughout pageSize acts ↔ System.SoundThroughout pageSize acts := by
  constructor
  · intro hexact acts' c s₁ hle hs₁
    obtain ⟨rest, rfl⟩ := hle
    obtain ⟨s₂, hs₂, -⟩ := exec_of_append h
    obtain ⟨s₁', hs₁', hstep⟩ := exec_concat.mp hs₂
    obtain rfl := Option.some.inj (hs₁.symm.trans hs₁')
    obtain ⟨hrunning, hturned⟩ := System.step_turned hstep
    have hle : acts' <+: acts' ++ [.call c] ++ rest :=
      (List.prefix_append ..).trans (List.prefix_append ..)
    exact hturned.sound (System.exec_coherent hs₁ hrunning) (hexact _ _ hle hs₁)
      (hexact _ _ (List.prefix_append ..) hs₂)
  · intro hsound acts' s' hle hs'
    refine (System.exec_keyed hs' ?_).exact
    intro acts'' c s'' hle'
    exact hsound acts'' c s'' (hle'.trans hle)

/-- A loader is opened, asked for its tensor and closed. -/
def openGetClose : List Move :=
  [.call (.open (openOn 0)), .serve 0 (some 4096), .response,
    .call (.getDLTensor 0 0 4), .serve 0 (some 0), .response,
    .call (.close 0), .serve 0 (some 0), .response]

theorem table_exact_openGetClose : System.ExactThroughout 4096 openGetClose := by
  refine (@table_exact_iff 4096 openGetClose _ (Option.some_get (by decide +kernel)).symm).mpr ?_
  intro acts' c s' hle hs'
  obtain ⟨htake, hplace⟩ := take_of_concat_prefix hle
  have hlt := (List.getElem?_eq_some_iff.mp hplace).1
  rw [htake] at hs'
  generalize acts'.length = n at hplace hlt hs'
  have hlive : ∀ i, (exec (System.step 4096) (openGetClose.take n) {}).map
      (fun s => decide (i ∈ live s.log)) = some true → i ∈ live s'.log := by
    intro i hi
    rw [hs'] at hi
    exact of_decide_eq_true (Option.some.inj hi)
  change n < 9 at hlt
  interval_cases n
  all_goals cases hplace
  · refine ⟨?_, nofun⟩
    intro o ho
    cases ho
    exact ⟨(0, 1), rfl⟩
  · refine ⟨nofun, ?_⟩
    intro i op hc
    cases hc
    exact .inl (hlive 0 (by decide +kernel))
  · refine ⟨nofun, ?_⟩
    intro i op hc
    cases hc
    exact .inl (hlive 0 (by decide +kernel))

/-- An `open` that raises leaves its handle in the table. -/
theorem open_raises_keyed : ¬ ∀ (pageSize : ℕ) (acts : List Move) (s : System),
    exec (System.step pageSize) acts {} = some s → s.TableExact := by
  intro h
  have hexact := h 4096 [.call (.open { openOn 0 with cudaFound := false })] _ rfl
  have hkey := (hexact.keys rfl 0).mp rfl
  cases hkey

end InstantTensor
