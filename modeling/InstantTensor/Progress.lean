/-
# `InstantTensor.Progress` — a process in which nothing fails goes on

Reads may return anything the backend takes, in any order (`Turn.Proper`).  Then no thread of the
process throws, unless the loader posts a chunk after `CLOSE` (`Running.turn`); a thread behind the loader
with something to do can do it (`Running.busy`), and when all of them are idle, so can the
loader thread (`Running.idle`).  Each turn leaves less to do, where a chunk to post stands for all the
work it will be (`Running.toDo_lt`).
-/
import InstantTensor.Stalls
import InstantTensor.RankTurns
import InstantTensor.ShortReads

namespace InstantTensor

/-- A turn in which nothing fails. -/
def Turn.Proper (backend : Backend) : Turn → Prop
  | .complete r result => backend.rejects r result = false ∧ backend.throws result = false
  | .fault => False
  | _ => True

/-- Every read has a result that the backend takes. -/
theorem Load.exists_accepted {l : Load} {c : ℕ} {r : Read} (hr : r ∈ l.reads c) :
    ∃ result : ℤ, result ≤ r.request ∧ l.args.backend.rejects r result = false ∧
      l.args.backend.throws result = false := by
  unfold reads at hr
  split at hr
  · cases hr
  next chunk hchunk =>
  rw [issued_eq, mem_wanted] at hr
  obtain ⟨i, -, -, hslice⟩ := hr
  cases hb : l.args.backend with
  | CUFILE =>
      have hrequest : r.request = r.size := by
        rw [hslice]
        simp only [slice, requestSize, hb]
      refine ⟨r.size, by rw [hrequest], by simp [Backend.rejects], ?_⟩
      simp only [Backend.throws, decide_eq_false_iff_not]
      omega
  | _ => exact ⟨0, Int.natCast_nonneg _, by simp [Backend.rejects, IoEvent.res_nonneg], rfl⟩

/-- `CLOSE` has been served while there were chunks left to prefetch. -/
def Loader.ClosedShort (s : Loader) : Prop := s.stop = true ∧ s.chunkReading < s.prefetchLimit

namespace Pipeline

variable {l : Load} {n : ℕ} {s s' : Pipeline}

/-- A process that asks for the first `n` tensors and in which nothing has failed. -/
structure Running (l : Load) (n : ℕ) (s : Pipeline) : Prop where
  kept : Kept l (List.range n) s
  aborted : s.aborted = none
  accepted : ∀ e ∈ s.completed, l.args.backend.rejects e.1 e.2 = false
  alive : ∀ e, s.loader.control ≠ .failed e

namespace Running

/-! ## The loader thread -/

theorem healthy (s : Pipeline) (arrived : Bool) : Choice.Healthy ⟨arrived, s.handles⟩ := by
  intro j
  simp only [handles]
  split <;> exact Reap.noConfusion

/-- The loader moves on, and throws nothing. -/
theorem loader_next (h : Running l n s) (hreq : l.layout.Requestable)
    (hn : n ≤ l.layout.tensors.length) {arrived : Bool} {loader : Loader}
    (hnext : s.loader.next l.pageSize ⟨arrived, s.handles⟩ = some loader) :
    s.loader = l.start (List.range n) ∧ loader = l.opened (List.range n) ∨
      Loader.Opened l s.loader ∧ Loader.Move s.loader loader := by
  rcases l.run_start h.kept.loader with hstart | hrun
  · rw [hstart, l.next_start, Option.some.injEq] at hnext
    exact .inl ⟨hstart, hnext.symm⟩
  obtain ⟨ho, k, hk⟩ := l.run_answered hrun
  refine .inr ⟨ho, ?_⟩
  rcases ho.next_cases hnext with hm | ⟨e, hfails, -⟩
  · exact hm
  · cases hfails with
    | indexOutOfRange _ hq hlen =>
        obtain ⟨hlt, rfl, -⟩ := hk.toInOrder.get hq
        rw [ho.tensors] at hlen
        omega
    | outOfOrder _ hq hlt =>
        obtain ⟨-, rfl, -⟩ := hk.toInOrder.get hq
        have := hk.current
        omega
    | chunkIdOutOfRange hc hge hout =>
        obtain ⟨tensor, hmem, -, hlimit, hlast⟩ := ho.currentTensor
        have hle := (hreq tensor hmem).2.2
        have hid := ho.awaits _ (by rw [hc]; rfl)
        omega
    | chunkFailed hraised => exact absurd hraised (healthy s arrived _)

end Running

/-- What is left to do, where every chunk to post stands for its work. -/
def toDo (l : Load) (s : Pipeline) : ℕ :=
  (12 * l.args.numThreads + 32) * s.loader.rest l + s.loader.steps + 4 * s.work

theorem postReads_work (pageSize : ℕ) (args : OpenArgs) (p : ChunkIOParams) (s : Pipeline)
    (hposting : s.posting = none) :
    (postReads pageSize args p s).work ≤ s.work + 3 * args.numThreads + 4 := by
  have hlen : (issued (initBuffer pageSize args) args p).length ≤ args.numThreads := by
    rw [issued_eq, wanted]
    refine Nat.le_trans (List.length_filter_le _ _) ?_
    simp [slices]
  have hposts : ∀ (s₁ : Pipeline) (posting : Posting) (jobs : List Job), s₁.posting = some posting →
      s₁.lastPage = s.lastPage ++ jobs → s₁.inFlight = s.inFlight → s₁.completed = s.completed →
      s₁.cuda = s.cuda → s₁.wait = s.wait →
      posting.reads.length + (jobs.flatMap Job.reads).length ≤ args.numThreads → jobs.length ≤ 1 →
      s₁.work ≤ s.work + 3 * args.numThreads + 4 := by
    intro s₁ posting jobs h₁ h₂ h₃ h₄ h₅ h₆ hreads hjobs
    simp only [work, hposting, h₁, h₂, h₃, h₄, h₅, h₆, Option.toList_some, Option.toList_none,
      List.flatMap_cons, List.flatMap_nil, List.flatMap_append, List.length_append, List.length_cons,
      List.length_nil]
    omega
  unfold postReads
  cases args.backend with
  | AIO | AIO_BUFFERED =>
      simp only
      split
      · exact hposts _ _ [_] rfl rfl rfl rfl rfl rfl (by simpa using hlen) (Nat.le_refl _)
      · exact hposts _ _ [] rfl (List.append_nil _).symm rfl rfl rfl rfl hlen (Nat.zero_le _)
  | _ => exact hposts _ _ [] rfl (List.append_nil _).symm rfl rfl rfl rfl hlen (Nat.zero_le _)

theorem postReads_running (pageSize : ℕ) (args : OpenArgs) (p : ChunkIOParams) (s : Pipeline) :
    (postReads pageSize args p s).aborted = s.aborted ∧
      (postReads pageSize args p s).completed = s.completed := by
  unfold postReads
  cases args.backend with
  | AIO | AIO_BUFFERED =>
      simp only
      split <;> exact ⟨rfl, rfl⟩
  | _ => exact ⟨rfl, rfl⟩

namespace Running

/-- The loader comes closer to its end. -/
theorem loader_progress (h : Running l n s) (hreq : l.layout.Requestable)
    (hn : n ≤ l.layout.tensors.length) {arrived : Bool} {loader : Loader}
    (hnext : s.loader.next l.pageSize ⟨arrived, s.handles⟩ = some loader) :
    (∀ e, loader.control ≠ .failed e) ∧ (loader.rest l + 1 = s.loader.rest l ∨
      loader.rest l = s.loader.rest l ∧ loader.chunkReading = s.loader.chunkReading ∧
        loader.steps < s.loader.steps) := by
  rcases h.loader_next hreq hn hnext with ⟨hstart, rfl⟩ | ⟨ho, hm⟩
  · refine ⟨fun e hc => (by cases hc), .inl ?_⟩
    rw [hstart]
    simp only [Loader.rest, Load.start, Load.opened, Loader.create, List.length_cons]
    omega
  · refine ⟨fun e hc => ?_, hm.progress ho⟩
    cases hm with
    | reap => exact h.alive e hc
    | @poll awaited =>
        cases awaited with
        | none => cases hc
        | some chunkId => cases hc
    | _ => cases hc

theorem loader_turn (h : Running l n s) (hreq : l.layout.Requestable)
    (hn : n ≤ l.layout.tensors.length) {arrived : Bool}
    (hturn : loaderTurn l.pageSize l.args arrived s = some s') :
    s.loader.ClosedShort ∨ Running l n s' ∧ s'.toDo l < s.toDo l := by
  have hkept := h.kept.loaderTurn hturn
  unfold loaderTurn at hturn
  split at hturn
  · cases hturn
  next hposting =>
  have hposting : s.posting = none := by simpa using hposting
  split at hturn
  · cases hturn
  next loader hnext =>
  obtain ⟨halive, hprogress⟩ := h.loader_progress hreq hn hnext
  have hsteps := loader.steps_le
  split at hturn
  · next e hc => exact absurd hc (halive e)
  split at hturn
  · next hposts =>
    split at hturn
    · next hstop =>
      rcases h.loader_next hreq hn hnext with ⟨hstart, rfl⟩ | ⟨ho, hm⟩
      · cases hstop
      · left
        cases hm with
        | post _ hlt => exact ⟨hstop, hlt⟩
        | postAwaited _ _ hlt => exact ⟨hstop, hlt⟩
        | _ => exact absurd rfl hposts
    split at hturn
    · cases hturn
    next chunk hchunk =>
    cases hturn
    right
    have hposted := postReads_posted (s := { s with loader }) l.pageSize l.args
      (chunkIOParams (initBuffer l.pageSize l.args) l.args loader.chunkReading chunk) hposting
    have hwork := postReads_work l.pageSize l.args
      (chunkIOParams (initBuffer l.pageSize l.args) l.args loader.chunkReading chunk) { s with loader } hposting
    obtain ⟨haborted, hcompleted⟩ := postReads_running l.pageSize l.args
      (chunkIOParams (initBuffer l.pageSize l.args) l.args loader.chunkReading chunk) { s with loader }
    refine ⟨⟨hkept, haborted.trans h.aborted, ?_, ?_⟩, ?_⟩
    · intro e he
      exact h.accepted e (hcompleted ▸ he)
    · intro e
      rw [hposted.loader]
      exact halive e
    · rcases hprogress with hrest | ⟨-, hstays, -⟩
      · -- the work of the chunk is paid for by the chunk
        have hbefore : ({ s with loader } : Pipeline).work = s.work := rfl
        simp only [toDo, hposted.loader, ← hrest, Nat.mul_add]
        omega
      · exact absurd hstays hposts
  · split at hturn
    · cases hturn
    cases hturn
    right
    refine ⟨⟨hkept, h.aborted, h.accepted, halive⟩, ?_⟩
    have hwork : ({ s with loader } : Pipeline).work = s.work := rfl
    rcases hprogress with hrest | ⟨hrest, -, hlt⟩
    · simp only [toDo, hwork, ← hrest, Nat.mul_add]
      omega
    · simp only [toDo, hwork, hrest]
      omega

end Running

/-! ## The other threads -/

theorem consume_running {args : OpenArgs} (m : ℕ) {s : Pipeline}
    (h : ∀ e ∈ s.completed, args.backend.rejects e.1 e.2 = false) :
    (consume args m s).aborted = s.aborted ∧
      ∀ e ∈ (consume args m s).completed, args.backend.rejects e.1 e.2 = false := by
  induction m generalizing s with
  | zero => exact ⟨rfl, h⟩
  | succ m ih =>
      rw [consume]
      split
      · exact ⟨rfl, h⟩
      next r result completed hcompleted =>
      rw [hcompleted] at h
      rw [if_neg (by simp [h _ List.mem_cons_self])]
      exact ih (s := { s with
        completed
        unfinishedCnt :=
          Function.update s.unfinishedCnt r.chunkId (sizeDec (s.unfinishedCnt r.chunkId))
        consumed := (r, result) :: s.consumed }) fun e he => h e (List.mem_cons_of_mem _ he)

theorem takeTurn_running {args : OpenArgs} {m : ℕ} {task : Task} {rest : List Task}
    (h : ∀ e ∈ s.completed, args.backend.rejects e.1 e.2 = false)
    (hturn : takeTurn args m task rest s = some s') :
    s'.aborted = s.aborted ∧ ∀ e ∈ s'.completed, args.backend.rejects e.1 e.2 = false := by
  unfold takeTurn at hturn
  split at hturn
  · split at hturn
    · cases hturn
      exact consume_running m h
    · cases hturn
  · split at hturn
    · cases hturn
    next r reaps hreaps =>
    split at hturn
    · cases hturn
    next r' result hfind =>
    have hmem := List.mem_of_find?_eq_some hfind
    have hr : r' = r := by simpa using List.find?_some hfind
    subst hr
    rw [if_neg (by simp [h _ hmem])] at hturn
    cases hturn
    exact ⟨rfl, fun e he => h e (List.mem_of_mem_erase he)⟩

/-- Without failures a thread behind the loader throws nothing. -/
theorem turn_running {pageSize : ℕ} {args : OpenArgs} {t : Turn}
    (h : ∀ e ∈ s.completed, args.backend.rejects e.1 e.2 = false) (ht : t.Proper args.backend)
    (hne : ∀ arrived, t ≠ .loader arrived) (haborted : s.aborted = none)
    (hturn : s.turn pageSize args t = some s') :
    s'.aborted = none ∧ ∀ e ∈ s'.completed, args.backend.rejects e.1 e.2 = false := by
  cases t with
  | loader arrived => exact absurd rfl (hne arrived)
  | complete r result =>
      simp only [turn] at hturn
      split at hturn
      · cases hturn
        refine ⟨if_neg (by simp [ht.2]), fun e he => ?_⟩
        rcases List.mem_append.mp he with he | he
        · exact h e he
        · exact List.mem_singleton.mp he ▸ ht.1
      · cases hturn
  | take m =>
      simp only [turn] at hturn
      split at hturn
      · cases hturn
      next task rest hcuda =>
      split at hturn
      · exact haborted ▸ takeTurn_running h hturn
      · cases hturn
  | fault => cases ht
  | submit m | lastPage m | cudaDone | waitDone =>
      simp only [turn] at hturn
      split at hturn
      · cases hturn
      · split at hturn
        · cases hturn
          exact ⟨haborted, h⟩
        · cases hturn
  | hand | lastPageDone =>
      simp only [turn] at hturn
      split at hturn
      · cases hturn
        exact ⟨haborted, h⟩
      · cases hturn

namespace Running

theorem inner_turn (h : Running l n s) {t : Turn} (ht : t.Proper l.args.backend)
    (hne : ∀ arrived, t ≠ .loader arrived) (hturn : s.turn l.pageSize l.args t = some s') :
    Running l n s' ∧ s'.toDo l + 4 ≤ s.toDo l := by
  obtain ⟨haborted, haccepted⟩ := turn_running h.accepted ht hne h.aborted hturn
  rcases turn_cases hturn with ⟨arrived, rfl, -⟩ | hacts
  · exact absurd rfl (hne arrived)
  refine ⟨⟨h.kept.acts hacts, haborted, haccepted, ?_⟩, ?_⟩
  · rw [hacts.loader]
    exact h.alive
  · rcases hacts.work with hstopped | hlt
    · rw [haborted] at hstopped
      cases hstopped
    · simp only [toDo, hacts.loader]
      omega

/-- A thread behind the loader that has something to do can do it. -/
theorem busy (h : Running l n s) (hbusy : s.posting ≠ none ∨ s.lastPage ≠ [] ∨ s.inFlight ≠ [] ∨
    s.cuda ≠ []) : ∃ t s', t.Proper l.args.backend ∧ t ≠ .waitDone ∧
      Pipeline.next l.pageSize l.args t s = some s' := by
  suffices hturn : ∃ t, t.Proper l.args.backend ∧ t ≠ .waitDone ∧
      (s.turn l.pageSize l.args t).isSome = true by
    obtain ⟨t, ht, hne, hturn⟩ := hturn
    obtain ⟨s', hturn⟩ := Option.isSome_iff_exists.mp hturn
    refine ⟨t, s', ht, hne, ?_⟩
    rw [next, if_neg (by rw [h.aborted]; exact Bool.noConfusion), hturn]
  cases hposting : s.posting with
  | some posting =>
      obtain ⟨reads, task⟩ := posting
      cases reads with
      | nil => exact ⟨.hand, trivial, Turn.noConfusion, by simp [turn, hposting]⟩
      | cons r reads => exact ⟨.submit 1, trivial, Turn.noConfusion, by simp [turn, hposting]⟩
  | none =>
  cases hjobs : s.lastPage with
  | cons job jobs =>
      obtain ⟨chunkId, reads⟩ := job
      cases reads with
      | nil => exact ⟨.lastPageDone, trivial, Turn.noConfusion, by simp [turn, hjobs]⟩
      | cons r reads => exact ⟨.lastPage 1, trivial, Turn.noConfusion, by simp [turn, hjobs]⟩
  | nil =>
  cases hflight : s.inFlight with
  | cons r reads =>
      obtain ⟨-, c, -, hr⟩ := h.kept.read_of_inFlight (r := r) (by simp [hflight])
      obtain ⟨result, hle, ht⟩ := Load.exists_accepted hr
      exact ⟨.complete r result, ht, Turn.noConfusion, by simp [turn, hflight, hle]⟩
  | nil =>
  have hout : s.outstanding = s.completed.map Prod.fst := by
    simp [outstanding, hposting, hjobs, hflight]
  obtain ⟨task, rest, hcuda⟩ := List.exists_cons_of_ne_nil (show s.cuda ≠ [] by simp_all)
  obtain ⟨t, ht, hturn⟩ := h.kept.accounted.task_turn hcuda hjobs hout
  refine ⟨t, ?_, ?_, hturn⟩
  · rcases ht with rfl | ⟨m, rfl⟩ <;> trivial
  · rcases ht with rfl | ⟨m, rfl⟩ <;> exact Turn.noConfusion

/-- When all other threads are idle, the loader is not kept waiting. -/
theorem next_isSome (h : Running l n s) (hwait : s.wait = [])
    (hend : s.loader.control ≠ .returned) :
    ∃ loader, s.loader.next l.pageSize ⟨true, s.handles⟩ = some loader := by
  rcases l.run_start h.kept.loader with hstart | hrun
  · exact ⟨_, hstart ▸ l.next_start _ _⟩
  obtain ⟨ho, k, hk⟩ := l.run_answered hrun
  cases hmove : s.loader.move l.pageSize ⟨true, s.handles⟩ with
  | ok loader => exact ⟨loader, by rw [Loader.next, hmove]⟩
  | error e =>
  cases e with
  | raised e => exact ⟨_, by rw [Loader.next, hmove]⟩
  | blocked =>
  rcases ho.move_blocked hmove with hc | ⟨e, hc⟩ | ⟨-, hopen, hq⟩ | ⟨j, -, -, hj⟩
  · exact absurd hc hend
  · exact absurd hc (h.alive e)
  · -- `CLOSE` comes at the end of the requests
    rw [hk.pending hopen, upcoming] at hq
    exact absurd hq (List.append_ne_nil_of_right_ne_nil _ (List.cons_ne_nil _ _))
  · simp only [handles, hwait, List.not_mem_nil, if_false] at hj
    cases hj

theorem idle (h : Running l n s) (hposting : s.posting = none) (hjobs : s.lastPage = [])
    (hcuda : s.cuda = []) (hwait : s.wait = []) (hend : s.loader.control ≠ .returned) :
    ∃ s', Pipeline.next l.pageSize l.args (.loader true) s = some s' := by
  obtain ⟨loader, hnext⟩ := h.next_isSome hwait hend
  rw [next, if_neg (by rw [h.aborted]; exact Bool.noConfusion)]
  simp only [turn, Pipeline.loaderTurn, hposting, hnext]
  rw [if_neg (by exact Bool.noConfusion)]
  split
  · exact ⟨_, rfl⟩
  split
  · next hposts =>
    split
    · exact ⟨_, rfl⟩
    obtain ⟨hge, hreading, -⟩ := h.kept.loader_reading hnext hposts
    have ho := h.kept.loader_opened hnext
    have hlimit := ho.limit_lt
    have hle := ho.reading_le
    rw [List.getElem?_eq_getElem (show loader.chunkReading.toNat < loader.chunks.length by omega)]
    exact ⟨_, rfl⟩
  · rw [if_neg (by simp [joined, hjobs, hcuda, hwait])]
    exact ⟨_, rfl⟩

end Running

end Pipeline

end InstantTensor
