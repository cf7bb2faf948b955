/-
# `InstantTensor.Turns` — what every turn keeps

A turn is one of the loader thread or one of ten actions of the threads behind it
(`Pipeline.Acts`, `turn_cases`); what holds of a run is proved by cases on these.  Every turn
keeps the books of `InstantTensor.Accounting` in order, and the loader thread on a run of
`InstantTensor.Loader` — so what holds of every run of the loader, whatever its handles do, holds
inside the process.  The link between the two is `Kept.loader_read`: the loader reaps
only handles that are done.
-/
import InstantTensor.Accounting

namespace InstantTensor

/-- The process in front of the requests of a load. -/
def Load.pipeline (l : Load) (gets : List ℕ) : Pipeline := Pipeline.create (l.start gets)

namespace Pipeline

variable {l : Load} {s s' : Pipeline}

@[simp] theorem consume_loader [IoEvent] (args : OpenArgs) (n : ℕ) (s : Pipeline) :
    (consume args n s).loader = s.loader := by
  induction n generalizing s with
  | zero => rfl
  | succ n ih =>
      rw [consume]
      split
      · rfl
      · split
        · rfl
        · exact ih _

/-! ## What the threads behind the loader can do -/

inductive Acts [IoEvent] (args : OpenArgs) : Pipeline → Pipeline → Prop
  | submit {s : Pipeline} {posting : Posting} {n : ℕ} : s.posting = some posting → 0 < n →
      n ≤ posting.reads.length → Acts args s { s with
        posting := some { posting with reads := posting.reads.drop n }
        inFlight := s.inFlight ++ posting.reads.take n }
  | hand {s : Pipeline} {task : Task} : s.posting = some ⟨[], task⟩ → Acts args s { s with
      posting := none
      cuda := s.cuda ++ [task]
      wait := s.wait ++ [task.chunkId] }
  | lastPage {s : Pipeline} {job : Job} {jobs : List Job} {n : ℕ} : s.lastPage = job :: jobs →
      0 < n → n ≤ job.reads.length → Acts args s { s with
        lastPage := { job with reads := job.reads.drop n } :: jobs
        inFlight := s.inFlight ++ job.reads.take n }
  | lastPageDone {s : Pipeline} {chunkId : ℤ} {jobs : List Job} :
      s.lastPage = ⟨chunkId, []⟩ :: jobs → Acts args s { s with lastPage := jobs }
  | complete {s : Pipeline} {r : Read} {result : ℤ} : r ∈ s.inFlight → result ≤ r.request →
      Acts args s { s with
        inFlight := s.inFlight.erase r
        completed := s.completed ++ [(r, result)]
        aborted := if args.backend.throws result then some (.read r result) else none }
  | count {s : Pipeline} {task : Task} {rest : List Task} {n : ℕ} :
      args.backend.counts = true → s.cuda = task :: rest → s.submitted task = true → 0 < n →
      n ≤ args.backend.batch (s.unfinishedCnt task.chunkId) → n ≤ s.completed.length →
      Acts args s (s.consume args n)
  | reap {s : Pipeline} {task : Task} {rest : List Task} {r : Read} {reaps : List Read} {result : ℤ} :
      args.backend.counts = false → s.cuda = task :: rest → task.reaps = r :: reaps →
      (r, result) ∈ s.completed → args.backend.rejects r result = false → Acts args s { s with
        completed := s.completed.erase (r, result)
        cuda := { task with reaps } :: rest
        consumed := (r, result) :: s.consumed }
  | cudaDone {s : Pipeline} {task : Task} {rest : List Task} : s.cuda = task :: rest →
      s.submitted task = true → s.finished args task = true → Acts args s { s with cuda := rest }
  | waitDone {s : Pipeline} {chunkId : ℤ} {rest : List ℤ} : s.wait = chunkId :: rest →
      (∀ task ∈ s.cuda, task.chunkId ≠ chunkId) → Acts args s { s with wait := rest }
  | abort {s : Pipeline} (reason : Abort) : Acts args s { s with aborted := some reason }

section
variable {pageSize : ℕ} {args : OpenArgs}

theorem takeTurn_cases [IoEvent] {n : ℕ} {task : Task} {rest : List Task} (hcuda : s.cuda = task :: rest)
    (hsubmitted : s.submitted task = true) (hturn : takeTurn args n task rest s = some s') :
    Acts args s s' := by
  unfold takeTurn at hturn
  split at hturn
  · next hb =>
    split at hturn
    · next hn =>
      cases hturn
      exact .count hb hcuda hsubmitted hn.1 hn.2.1 hn.2.2
    · cases hturn
  · next hb =>
    split at hturn
    · cases hturn
    next r reaps hreaps =>
    split at hturn
    · cases hturn
    next r' result hfind =>
    have hmem := List.mem_of_find?_eq_some hfind
    have hr : r' = r := by simpa using List.find?_some hfind
    subst hr
    split at hturn
    · cases hturn
      exact .abort _
    · next haccept =>
      cases hturn
      exact .reap (by simpa using hb) hcuda hreaps hmem (by simpa using haccept)

/-- A turn of the loader thread ends the process, posts a chunk, or only moves the loader. -/
theorem loaderTurn_cases {arrived : Bool} (hturn : loaderTurn pageSize args arrived s = some s') :
    (∃ reason, s' = { s with aborted := some reason }) ∨
      ∃ loader, s.posting = none ∧ s.loader.next pageSize ⟨arrived, s.handles⟩ = some loader ∧
        ((loader.chunkReading ≠ s.loader.chunkReading ∧
            ∃ chunk, loader.chunks[loader.chunkReading.toNat]? = some chunk ∧
              s' = postReads pageSize args
                (chunkIOParams (initBuffer pageSize args) args loader.chunkReading chunk)
                { s with loader }) ∨
          loader.chunkReading = s.loader.chunkReading ∧ s' = { s with loader }) := by
  unfold loaderTurn at hturn
  split at hturn
  · cases hturn
  next hposting =>
  have hposting : s.posting = none := by simpa using hposting
  split at hturn
  · cases hturn
  next loader hnext =>
  split at hturn
  · cases hturn
    exact .inl ⟨_, rfl⟩
  split at hturn
  · next hposts =>
    split at hturn
    · cases hturn
      exact .inl ⟨_, rfl⟩
    split at hturn
    · cases hturn
    next chunk hchunk =>
    cases hturn
    exact .inr ⟨loader, hposting, hnext, .inl ⟨hposts, chunk, hchunk, rfl⟩⟩
  · next hstays =>
    split at hturn
    · cases hturn
    · cases hturn
      exact .inr ⟨loader, hposting, hnext, .inr ⟨not_not.mp hstays, rfl⟩⟩

/-- Every turn is one of the loader thread or one of these. -/
theorem turn_cases [IoEvent] {t : Turn} (hturn : s.turn pageSize args t = some s') :
    (∃ arrived, t = .loader arrived ∧ loaderTurn pageSize args arrived s = some s') ∨
      Acts args s s' := by
  cases t with
  | loader arrived => exact .inl ⟨arrived, rfl, hturn⟩
  | submit n =>
      right
      simp only [turn] at hturn
      split at hturn
      · cases hturn
      next posting hposting =>
      split at hturn
      · next hn =>
        cases hturn
        exact .submit hposting hn.1 hn.2
      · cases hturn
  | hand =>
      right
      simp only [turn] at hturn
      split at hturn
      · next task hposting =>
        cases hturn
        exact .hand hposting
      · cases hturn
  | lastPage n =>
      right
      simp only [turn] at hturn
      split at hturn
      · cases hturn
      next job jobs hjobs =>
      split at hturn
      · next hn =>
        cases hturn
        exact .lastPage hjobs hn.1 hn.2
      · cases hturn
  | lastPageDone =>
      right
      simp only [turn] at hturn
      split at hturn
      · next hjobs =>
        cases hturn
        exact .lastPageDone hjobs
      · cases hturn
  | complete r result =>
      right
      simp only [turn] at hturn
      split at hturn
      · next hr =>
        cases hturn
        exact .complete hr.1 hr.2
      · cases hturn
  | take n =>
      right
      simp only [turn] at hturn
      split at hturn
      · cases hturn
      next task rest hcuda =>
      split at hturn
      · next hsubmitted => exact takeTurn_cases hcuda hsubmitted hturn
      · cases hturn
  | cudaDone =>
      right
      simp only [turn] at hturn
      split at hturn
      · cases hturn
      next task rest hcuda =>
      split at hturn
      · next hdone =>
        cases hturn
        obtain ⟨hsubmitted, hfinished⟩ := Bool.and_eq_true_iff.mp hdone
        exact .cudaDone hcuda hsubmitted hfinished
      · cases hturn
  | waitDone =>
      right
      simp only [turn] at hturn
      split at hturn
      · cases hturn
      next chunkId rest hwait =>
      split at hturn
      · next hcuda =>
        cases hturn
        refine .waitDone hwait fun task htask => ?_
        simpa using List.all_eq_true.mp hcuda task htask
      · cases hturn
  | fault =>
      cases hturn
      exact .inr (.abort _)

end

/-! ## The invariant of a run -/

/-- The loader thread is in a run of its own, and the books are in order. -/
structure Kept [IoEvent] (l : Load) (gets : List ℕ) (s : Pipeline) : Prop where
  loader : Run (Loader.next l.pageSize) (l.start gets) s.loader
  accounted : Accounted l s

namespace Kept

variable [IoEvent] {gets : List ℕ}

theorem shuffle (h : Kept l gets s) (hout : s'.outstanding.Perm s.outstanding)
    (htasks : s'.tasks = s.tasks) (hwaiting : s'.waiting = s.waiting)
    (hunfinished : s'.unfinishedCnt = s.unfinishedCnt) (hconsumed : s'.consumed = s.consumed)
    (hloader : s'.loader = s.loader) : Kept l gets s' where
  loader := hloader ▸ h.loader
  accounted := h.accounted.shuffle hout htasks hwaiting hunfinished hconsumed hloader

theorem abort (h : Kept l gets s) (aborted : Option Abort) : Kept l gets { s with aborted } :=
  h.shuffle (List.Perm.refl _) rfl rfl rfl rfl rfl

section
variable {c : Choice} {loader : Loader}

/-- A step of the loader is the one that serves `OPEN`, or comes after it. -/
theorem loader_cases (h : Kept l gets s) (hnext : s.loader.next l.pageSize c = some loader) :
    s.loader = l.start gets ∧ loader = l.opened gets ∨ Loader.Opened l s.loader := by
  rcases l.run_start h.loader with hstart | hrun
  · rw [hstart, l.next_start, Option.some.injEq] at hnext
    exact .inl ⟨hstart, hnext.symm⟩
  · exact .inr (l.run_opened (l.opened_opened gets) hrun)

theorem loader_opened (h : Kept l gets s) (hnext : s.loader.next l.pageSize c = some loader) :
    Loader.Opened l loader := by
  rcases h.loader_cases hnext with ⟨-, rfl⟩ | ho
  · exact l.opened_opened gets
  · exact ho.step ⟨c, hnext⟩

/-- A step of the loader posts the next chunk or none. -/
theorem loader_reading (h : Kept l gets s) (hnext : s.loader.next l.pageSize c = some loader)
    (hposts : loader.chunkReading ≠ s.loader.chunkReading) :
    -1 ≤ s.loader.chunkReading ∧ loader.chunkReading = s.loader.chunkReading + 1 ∧
      loader.chunkRead < loader.chunkReading := by
  rcases h.loader_cases hnext with ⟨hstart, rfl⟩ | ho
  · rw [hstart] at hposts
    exact absurd rfl hposts
  · obtain ⟨hreading, hread⟩ := (ho.next_reading hnext).resolve_left hposts
    exact ⟨ho.read_ge.trans ho.read_le, hreading, by omega⟩

/-- A step of the loader reaps no chunk whose handle is not done. -/
theorem loader_read (h : Kept l gets s) {arrived : Bool} (hposting : s.posting = none)
    (hnext : s.loader.next l.pageSize ⟨arrived, s.handles⟩ = some loader) :
    ∀ c ∈ s.waiting, loader.chunkRead < c := by
  intro c hc
  have hlt := (h.accounted.between c hc).1
  rcases h.loader_cases hnext with ⟨hstart, rfl⟩ | ho
  · rw [hstart] at hlt
    exact hlt
  · by_contra hge
    have hdone := ho.next_reaped hnext c hlt (not_lt.mp hge)
    rw [waiting, hposting, Option.toList_none, List.map_nil, List.append_nil] at hc
    simp [handles, hc] at hdone

end

theorem loaderTurn (h : Kept l gets s) {arrived : Bool}
    (hturn : Pipeline.loaderTurn l.pageSize l.args arrived s = some s') : Kept l gets s' := by
  rcases loaderTurn_cases hturn with ⟨reason, rfl⟩ | ⟨loader, hposting, hnext, hcases⟩
  · exact h.abort _
  have hread := h.loader_read hposting hnext
  have hrun := h.loader.trans (Run.of_next hnext)
  rcases hcases with ⟨hposts, chunk, hchunk, rfl⟩ | ⟨hstays, rfl⟩
  · obtain ⟨hge, hreading, hle⟩ := h.loader_reading hnext hposts
    have hreads : l.reads loader.chunkReading.toNat = issued l.geometry l.args
        (chunkIOParams l.geometry l.args loader.chunkReading chunk) := by
      rw [(h.loader_opened hnext).chunks] at hchunk
      rw [Load.reads, hchunk]
      simp only
      rw [show (loader.chunkReading.toNat : ℤ) = loader.chunkReading by omega]
    have hposted := postReads_posted (s := { s with loader }) l.pageSize l.args
      (chunkIOParams l.geometry l.args loader.chunkReading chunk) hposting
    exact ⟨hposted.loader ▸ hrun, h.accounted.post hread hle hreading hge rfl hreads hposted⟩
  · exact ⟨hrun, h.accounted.loaderMove hstays hread⟩

theorem acts (h : Kept l gets s) (hacts : Acts l.args s s') : Kept l gets s' := by
  cases hacts with
  | @submit posting n hposting =>
      refine h.shuffle (List.perm_iff_count.mpr fun r => ?_) ?_ ?_ rfl rfl rfl
      · have := count_drop_take n posting.reads r
        simp only [outstanding, hposting, Option.toList_some, List.flatMap_cons,
          List.flatMap_nil, List.append_nil, List.count_append]
        omega
      · simp [tasks, hposting]
      · simp [waiting, hposting]
  | hand hposting =>
      refine h.shuffle (List.Perm.of_eq ?_) ?_ ?_ rfl rfl rfl
      · simp [outstanding, hposting]
      · simp [tasks, hposting]
      · simp [waiting, hposting]
  | @lastPage job jobs n hjobs =>
      refine h.shuffle (List.perm_iff_count.mpr fun r => ?_) rfl rfl rfl rfl rfl
      have := count_drop_take n job.reads r
      simp only [outstanding, hjobs, List.flatMap_cons, List.count_append]
      omega
  | lastPageDone hjobs =>
      refine h.shuffle (List.Perm.of_eq ?_) rfl rfl rfl rfl rfl
      simp [outstanding, hjobs]
  | complete hr =>
      refine h.shuffle (List.perm_iff_count.mpr fun r' => ?_) rfl rfl rfl rfl rfl
      have := (List.perm_cons_erase hr).count_eq r'
      simp only [outstanding, List.map_append, List.map_cons, List.map_nil, List.count_append,
        List.count_cons, List.count_nil] at this ⊢
      omega
  | count hb => exact ⟨by simpa using h.loader, Accounted.consume hb _ h.accounted⟩
  | reap hb hcuda hreaps hmem haccept =>
      exact ⟨h.loader, h.accounted.reap hb hcuda hreaps hmem haccept⟩
  | cudaDone hcuda _ hfinished => exact ⟨h.loader, h.accounted.cudaDone hcuda hfinished⟩
  | waitDone hwait hcuda => exact ⟨h.loader, h.accounted.waitDone hwait hcuda⟩
  | abort reason => exact h.abort _

theorem step (h : Kept l gets s) (hstep : Step (Pipeline.next l.pageSize l.args) s s') :
    Kept l gets s' := by
  obtain ⟨t, hnext⟩ := hstep
  unfold Pipeline.next at hnext
  split at hnext
  · cases hnext
  · rcases turn_cases hnext with ⟨arrived, -, hturn⟩ | hacts
    · exact h.loaderTurn hturn
    · exact h.acts hacts

end Kept

end Pipeline

namespace Load

variable [IoEvent] {l : Load} {gets : List ℕ} {s : Pipeline}

theorem pipeline_accounted (l : Load) (gets : List ℕ) : Pipeline.Accounted l (l.pipeline gets) where
  balance := fun _ => rfl
  counted := fun _ _ _ => rfl
  reaped := fun _ _ ht => absurd ht List.not_mem_nil
  due := fun _ hr => absurd hr List.not_mem_nil
  awaited := List.suffix_refl _
  sorted := List.Pairwise.nil
  between := fun _ hc => absurd hc List.not_mem_nil
  accepted := fun _ he => absurd he List.not_mem_nil

theorem run_kept (h : Run (Pipeline.next l.pageSize l.args) (l.pipeline gets) s) :
    Pipeline.Kept l gets s :=
  Run.invariant (fun _ _ hkept hstep => hkept.step hstep) h
    ⟨Run.refl _, l.pipeline_accounted gets⟩

end Load

end InstantTensor
