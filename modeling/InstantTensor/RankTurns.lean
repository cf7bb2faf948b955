/-
# `InstantTensor.RankTurns` — what a turn of a rank can do

A turn of the process either keeps its tasks, pending handles and results, or posts a chunk,
completes a read, ends a task of `cuda_thread` or `wait_thread`, or closes (`Pipeline.Shift`).  With
what it does to the buffers and the streams, a turn of a rank is one of ten (`Rank.Moved`); what holds
of all runs of a group is proved by cases on these.
-/
import Mathlib.Data.List.Nodup
import InstantTensor.Completions
import InstantTensor.Ranks

namespace InstantTensor

namespace Pipeline

variable {l : Load} {gets : List ℕ} {s s' : Pipeline}

/-! ## What a turn does to the tasks and the results -/

/-- The tasks are for the same chunks, the same handles are pending, and the same reads have
completed. -/
structure Same (s s' : Pipeline) : Prop where
  tasks : s'.tasks.map Task.chunkId = s.tasks.map Task.chunkId
  waiting : s'.waiting = s.waiting
  reading : s'.loader.chunkReading = s.loader.chunkReading
  results : ∀ e, e ∈ s'.results ↔ e ∈ s.results

inductive Shift : Turn → Pipeline → Pipeline → Prop
  | keep {t : Turn} {s s' : Pipeline} : (∀ r result, t ≠ .complete r result) → t ≠ .cudaDone →
      t ≠ .waitDone → Same s s' → s'.loader.stop = s.loader.stop → Shift t s s'
  | close {arrived : Bool} {s s' : Pipeline} : Same s s' → s.loader.stop = false →
      s'.loader.stop = true → s.waiting = [] → Shift (.loader arrived) s s'
  | post {arrived : Bool} {s s' : Pipeline} :
      s'.tasks.map Task.chunkId = s.tasks.map Task.chunkId ++ [s.loader.chunkReading + 1] →
      s'.waiting = s.waiting ++ [s.loader.chunkReading + 1] →
      s'.loader.chunkReading = s.loader.chunkReading + 1 →
      s'.loader.stop = false → s.loader.stop = false →
      (∀ e, e ∈ s'.results ↔ e ∈ s.results) → Shift (.loader arrived) s s'
  | complete {r : Read} {result : ℤ} {s s' : Pipeline} : r ∈ s.inFlight → result ≤ r.request →
      s'.tasks = s.tasks → s'.waiting = s.waiting → s'.loader = s.loader →
      (∀ e, e ∈ s'.results ↔ e = (r, result) ∨ e ∈ s.results) → Shift (.complete r result) s s'
  | cudaDone {task : Task} {rest : List Task} {s s' : Pipeline} : s.cuda = task :: rest →
      s.tasks = task :: s'.tasks → s'.waiting = s.waiting → s'.loader = s.loader →
      (∀ e, e ∈ s'.results ↔ e ∈ s.results) → Shift .cudaDone s s'
  | waitDone {chunkId : ℤ} {rest : List ℤ} {s s' : Pipeline} : s.wait = chunkId :: rest →
      s'.tasks = s.tasks → s.waiting = chunkId :: s'.waiting → s'.loader = s.loader →
      (∀ e, e ∈ s'.results ↔ e ∈ s.results) → chunkId ∉ s.tasks.map Task.chunkId →
      Shift .waitDone s s'

theorem Same.refl (s : Pipeline) : Same s s := ⟨rfl, rfl, rfl, fun _ => Iff.rfl⟩

theorem consume_same [IoEvent] (args : OpenArgs) (n : ℕ) (s : Pipeline) : Same s (consume args n s) := by
  induction n generalizing s with
  | zero => exact Same.refl s
  | succ n ih =>
      rw [consume]
      split
      · exact Same.refl s
      next r result completed hcompleted =>
      split
      · exact ⟨rfl, rfl, rfl, fun _ => Iff.rfl⟩
      · have hrest := ih { s with
          completed
          unfinishedCnt :=
            Function.update s.unfinishedCnt r.chunkId (sizeDec (s.unfinishedCnt r.chunkId))
          consumed := (r, result) :: s.consumed }
        refine ⟨hrest.tasks, hrest.waiting, hrest.reading, fun e => (hrest.results e).trans ?_⟩
        simp only [results, hcompleted, List.mem_append, List.mem_cons]
        tauto

theorem takeTurn_same [IoEvent] {args : OpenArgs} {n : ℕ} {task : Task} {rest : List Task}
    (hcuda : s.cuda = task :: rest) (hturn : takeTurn args n task rest s = some s') : Same s s' := by
  unfold takeTurn at hturn
  split at hturn
  · split at hturn
    · cases hturn
      exact consume_same args n s
    · cases hturn
  · split at hturn
    · cases hturn
    next r reaps hreaps =>
    split at hturn
    · cases hturn
    next r' result hfind =>
    have hmem := List.mem_of_find?_eq_some hfind
    have hr : r' = r := by simpa using List.find?_some hfind
    subst hr
    split at hturn
    · cases hturn
      exact ⟨rfl, rfl, rfl, fun _ => Iff.rfl⟩
    · cases hturn
      refine ⟨by simp [tasks, hcuda], rfl, rfl, fun e => ?_⟩
      have hperm := (List.perm_cons_erase hmem).mem_iff (a := e)
      simp only [results, List.mem_append, List.mem_cons] at hperm ⊢
      tauto

theorem postReads_results (pageSize : ℕ) (args : OpenArgs) (p : ChunkIOParams) (s : Pipeline) :
    (postReads pageSize args p s).results = s.results := by
  unfold postReads
  split
  · simp only
    split <;> rfl
  · simp only
    split <;> rfl
  all_goals rfl

/-- A loader that moves does not take back `CLOSE`. -/
theorem Kept.loader_stop [IoEvent] (h : Kept l gets s) {c : Choice} {loader : Loader}
    (hnext : s.loader.next l.pageSize c = some loader) :
    loader.stop = s.loader.stop ∨ s.loader.stop = false ∧ loader.stop = true := by
  rcases l.run_start h.loader with hstart | hrun
  · rw [hstart, l.next_start, Option.some.injEq] at hnext
    left
    rw [← hnext, hstart]
    rfl
  · rcases (l.run_opened (l.opened_opened gets) hrun).next_cases hnext with hm | ⟨e, -, rfl⟩
    · cases hm with
      | close _ hstop => exact .inr ⟨hstop, rfl⟩
      | _ => exact .inl rfl
    · exact .inl rfl

/-- `CLOSE` is served when all threads are idle, and behind it no chunk is posted. -/
theorem loaderTurn_stop {pageSize : ℕ} {args : OpenArgs} {arrived : Bool}
    (hturn : loaderTurn pageSize args arrived s = some s') :
    (s'.loader.chunkReading ≠ s.loader.chunkReading → s'.loader.stop = false) ∧
      (s'.loader.stop = true → s.loader.stop = false → s.waiting = []) := by
  unfold loaderTurn at hturn
  split at hturn
  · cases hturn
  next hposting =>
  have hposting : s.posting = none := by simpa using hposting
  split at hturn
  · cases hturn
  next loader hnext =>
  split at hturn
  · cases hturn
    exact ⟨fun hne => absurd rfl hne, fun hstop hopen => absurd (hopen.symm.trans hstop) (by decide)⟩
  split at hturn
  · split at hturn
    · cases hturn
      exact ⟨fun hne => absurd rfl hne, fun hstop hopen => absurd (hopen.symm.trans hstop) (by decide)⟩
    next hopen =>
    split at hturn
    · cases hturn
    next chunk hchunk =>
    cases hturn
    have hposted := postReads_posted (s := { s with loader }) pageSize args
      (chunkIOParams (initBuffer pageSize args) args loader.chunkReading chunk) hposting
    rw [hposted.loader]
    exact ⟨fun _ => by simpa using hopen, fun hstop => absurd hstop hopen⟩
  · next hstays =>
    split at hturn
    · cases hturn
    next hjoined =>
    cases hturn
    refine ⟨fun hne => absurd hne hstays, fun hstop hopen => ?_⟩
    have hstop : loader.stop = true := hstop
    simp only [hstop, hopen, Bool.not_false, Bool.true_and, Bool.not_eq_true', Bool.not_eq_false,
      joined, Bool.and_eq_true, List.isEmpty_iff] at hjoined
    simp [waiting, hposting, hjoined.2]

theorem Kept.loader_shift [IoEvent] (h : Kept l gets s) {arrived : Bool}
    (hturn : Pipeline.loaderTurn l.pageSize l.args arrived s = some s') : Shift (.loader arrived) s s' := by
  have hkeep : Same s s' → s'.loader.stop = s.loader.stop → Shift (.loader arrived) s s' :=
    Shift.keep (fun _ _ => Turn.noConfusion) Turn.noConfusion Turn.noConfusion
  obtain ⟨hopen, hidle⟩ := loaderTurn_stop hturn
  rcases loaderTurn_cases hturn with ⟨reason, rfl⟩ | ⟨loader, hposting, hnext, hcases⟩
  · exact hkeep ⟨rfl, rfl, rfl, fun _ => Iff.rfl⟩ rfl
  have hstop := h.loader_stop hnext
  rcases hcases with ⟨hposts, chunk, hchunk, rfl⟩ | ⟨hstays, rfl⟩
  · obtain ⟨-, hreading, -⟩ := h.loader_reading hnext hposts
    have hposted := postReads_posted (s := { s with loader }) l.pageSize l.args
      (chunkIOParams l.geometry l.args loader.chunkReading chunk) hposting
    have hid : (chunkIOParams l.geometry l.args loader.chunkReading chunk).chunkId
        = s.loader.chunkReading + 1 := hreading
    have hloader := hposted.loader
    have hnow : loader.stop = false := by
      rw [← hopen]
      · exact (congrArg Loader.stop hloader).symm
      · exact fun heq => hposts ((congrArg Loader.chunkReading hloader).symm.trans heq)
    have hbefore : s.loader.stop = false := by
      rcases hstop with hsame | hclose
      · exact hsame.symm.trans hnow
      · exact hclose.1
    obtain ⟨reaps, htasks, -⟩ := hposted.tasks
    refine .post ?_ ?_ ?_ ?_ hbefore fun e => ?_
    · exact (congrArg (List.map Task.chunkId) htasks).trans (by simp [hid, tasks])
    · exact hposted.waiting.trans (by simp [hid, waiting])
    · exact (congrArg Loader.chunkReading hloader).trans hreading
    · exact (congrArg Loader.stop hloader).trans hnow
    · exact iff_of_eq (congrArg (e ∈ ·)
        (postReads_results l.pageSize l.args (chunkIOParams l.geometry l.args loader.chunkReading chunk)
          { s with loader }))
  · rcases hstop with hsame | ⟨hbefore, hnow⟩
    · exact hkeep ⟨rfl, rfl, hstays, fun _ => Iff.rfl⟩ hsame
    · exact .close ⟨rfl, rfl, hstays, fun _ => Iff.rfl⟩ hbefore hnow (hidle hnow hbefore)

/-- Only the loader thread moves the loader. -/
theorem Acts.loader [IoEvent] {args : OpenArgs} (hacts : Acts args s s') : s'.loader = s.loader := by
  cases hacts with
  | count => exact consume_loader _ _ _
  | _ => rfl

theorem Kept.shift [IoEvent] (h : Kept l gets s) {t : Turn}
    (hnext : Pipeline.next l.pageSize l.args t s = some s') : Shift t s s' := by
  unfold Pipeline.next at hnext
  split at hnext
  · cases hnext
  have hkeep : (∀ arrived, t ≠ .loader arrived) → (∀ r result, t ≠ .complete r result) →
      t ≠ .cudaDone → t ≠ .waitDone → Same s s' → Shift t s s' := by
    intro hloader hcomplete hcuda hwait hsame
    rcases turn_cases hnext with ⟨arrived, rfl, -⟩ | hacts
    · exact absurd rfl (hloader arrived)
    · exact .keep hcomplete hcuda hwait hsame (congrArg Loader.stop hacts.loader)
  cases t with
  | loader arrived => exact h.loader_shift hnext
  | submit n =>
      refine hkeep (fun _ => Turn.noConfusion) (fun _ _ => Turn.noConfusion) Turn.noConfusion
        Turn.noConfusion ?_
      simp only [turn] at hnext
      split at hnext
      · cases hnext
      next posting hposting =>
      split at hnext
      · cases hnext
        exact ⟨by simp [tasks, hposting], by simp [waiting, hposting], rfl, fun _ => Iff.rfl⟩
      · cases hnext
  | hand =>
      refine hkeep (fun _ => Turn.noConfusion) (fun _ _ => Turn.noConfusion) Turn.noConfusion
        Turn.noConfusion ?_
      simp only [turn] at hnext
      split at hnext
      · next task hposting =>
        cases hnext
        exact ⟨by simp [tasks, hposting], by simp [waiting, hposting], rfl, fun _ => Iff.rfl⟩
      · cases hnext
  | lastPage n =>
      refine hkeep (fun _ => Turn.noConfusion) (fun _ _ => Turn.noConfusion) Turn.noConfusion
        Turn.noConfusion ?_
      simp only [turn] at hnext
      split at hnext
      · cases hnext
      · split at hnext
        · cases hnext
          exact ⟨rfl, rfl, rfl, fun _ => Iff.rfl⟩
        · cases hnext
  | lastPageDone =>
      refine hkeep (fun _ => Turn.noConfusion) (fun _ _ => Turn.noConfusion) Turn.noConfusion
        Turn.noConfusion ?_
      simp only [turn] at hnext
      split at hnext
      · cases hnext
        exact ⟨rfl, rfl, rfl, fun _ => Iff.rfl⟩
      · cases hnext
  | complete r result =>
      simp only [turn] at hnext
      split at hnext
      · next hr =>
        cases hnext
        refine .complete hr.1 hr.2 rfl rfl rfl fun e => ?_
        simp only [results, List.mem_append, List.mem_singleton]
        tauto
      · cases hnext
  | take n =>
      refine hkeep (fun _ => Turn.noConfusion) (fun _ _ => Turn.noConfusion) Turn.noConfusion
        Turn.noConfusion ?_
      simp only [turn] at hnext
      split at hnext
      · cases hnext
      next task rest hcuda =>
      split at hnext
      · exact takeTurn_same hcuda hnext
      · cases hnext
  | cudaDone =>
      simp only [turn] at hnext
      split at hnext
      · cases hnext
      next task rest hcuda =>
      split at hnext
      · cases hnext
        exact .cudaDone hcuda (by simp [tasks, hcuda]) rfl rfl fun _ => Iff.rfl
      · cases hnext
  | waitDone =>
      simp only [turn] at hnext
      split at hnext
      · cases hnext
      next chunkId rest hwait =>
      split at hnext
      · next hcuda =>
        cases hnext
        have hcuda : ∀ task ∈ s.cuda, task.chunkId ≠ chunkId := fun task htask => by
          simpa using List.all_eq_true.mp hcuda task htask
        have hwaiting : s.waiting = chunkId :: ({ s with wait := rest } : Pipeline).waiting := by
          simp [waiting, hwait]
        refine .waitDone hwait rfl hwaiting rfl (fun _ => Iff.rfl) ?_
        -- behind the turn no task is left for a chunk that is not waited for
        have hkept := h.accounted.waitDone hwait hcuda
        have hsorted := h.accounted.sorted
        rw [hwaiting] at hsorted
        intro hmem
        have hlater := (List.pairwise_cons.mp hsorted).1 chunkId (hkept.awaited.subset hmem)
        omega
      · cases hnext
  | fault =>
      refine hkeep (fun _ => Turn.noConfusion) (fun _ _ => Turn.noConfusion) Turn.noConfusion
        Turn.noConfusion ?_
      cases hnext
      exact ⟨rfl, rfl, rfl, fun _ => Iff.rfl⟩

/-- A posted chunk is one of the layout. -/
theorem Kept.chunk_of_posted [IoEvent] (h : Kept l gets s) {c : ℤ} (hge : 0 ≤ c)
    (hle : c ≤ s.loader.chunkReading) : ∃ chunk, s.loader.chunks[c.toNat]? = some chunk ∧
      l.layout.chunks[c.toNat]? = some chunk := by
  rcases l.run_start h.loader with hstart | hrun
  · rw [hstart] at hle
    exact absurd (hge.trans hle) (show ¬ (0 : ℤ) ≤ -1 by decide)
  · have ho := l.run_opened (l.opened_opened gets) hrun
    have hlimit := ho.limit_lt
    have hreading := ho.reading_le
    have hlt : c.toNat < s.loader.chunks.length := by omega
    exact ⟨_, List.getElem?_eq_getElem hlt, by rw [← ho.chunks, List.getElem?_eq_getElem hlt]⟩

end Pipeline

/-! ## The reads of a process -/

namespace Load

/-- Every completed or taken read is one of its chunk, and none is in two places. -/
theorem readsUpTo_nodup (l : Load) (n : ℤ) : (l.readsUpTo n).Nodup := by
  refine List.nodup_flatMap.mpr ⟨fun c _ => ?_, ?_⟩
  · unfold reads
    split
    · exact List.nodup_nil
    · rw [issued_eq]
      exact wanted_nodup _ _
  · refine List.pairwise_lt_range.imp fun {c c'} hlt => ?_
    refine List.disjoint_left.mpr fun r hr hr' => ?_
    have hid := (chunkId_of_mem_reads hr).symm.trans (chunkId_of_mem_reads hr')
    omega

end Load

namespace Pipeline.Kept

variable [IoEvent] {l : Load} {gets : List ℕ} {s : Pipeline} (h : Kept l gets s)
include h

theorem read_of_inFlight {r : Read} (hr : r ∈ s.inFlight) : r.chunkId ∈ s.tasks.map Task.chunkId ∧
    ∃ c : ℕ, (c : ℤ) = r.chunkId ∧ r ∈ l.reads c := by
  have hout : r ∈ s.outstanding := by
    simp only [outstanding, List.mem_append]
    exact .inl (.inr hr)
  refine ⟨h.accounted.due r hout, ?_⟩
  obtain ⟨c, -, hc⟩ := Load.mem_readsUpTo.mp
    (h.accounted.perm.mem_iff.mp (List.mem_append_left _ hout))
  exact ⟨c, (Load.chunkId_of_mem_reads hc).symm, hc⟩

theorem read_of_results {e : Read × ℤ} (he : e ∈ s.results) :
    ∃ c : ℕ, (c : ℤ) = e.1.chunkId ∧ (c : ℤ) ≤ s.loader.chunkReading ∧ e.1 ∈ l.reads c := by
  have hmem : e.1 ∈ s.outstanding ++ s.consumed.map Prod.fst := by
    simp only [outstanding, List.mem_append, results] at he ⊢
    rcases he with he | he
    · exact .inl (.inr (List.mem_map_of_mem he))
    · exact .inr (List.mem_map_of_mem he)
  obtain ⟨c, hle, hc⟩ := Load.mem_readsUpTo.mp (h.accounted.perm.mem_iff.mp hmem)
  exact ⟨c, (Load.chunkId_of_mem_reads hc).symm, by have := h.ge; omega, hc⟩

/-- A read in flight has not completed. -/
theorem inFlight_ne {r : Read} (hr : r ∈ s.inFlight) {e : Read × ℤ} (he : e ∈ s.results) :
    e.1 ≠ r := by
  rintro rfl
  have hnodup := h.accounted.perm.nodup_iff.mpr (l.readsUpTo_nodup s.loader.chunkReading)
  have hcount := List.nodup_iff_count_le_one.mp hnodup e.1
  have hflight := List.count_pos_iff.mpr hr
  have hresult : 0 < (s.completed.map Prod.fst).count e.1 + (s.consumed.map Prod.fst).count e.1 := by
    rcases List.mem_append.mp he with he | he
    · have := List.count_pos_iff.mpr (List.mem_map_of_mem (f := Prod.fst) he)
      omega
    · have := List.count_pos_iff.mpr (List.mem_map_of_mem (f := Prod.fst) he)
      omega
  simp only [outstanding, List.count_append] at hcount
  omega

/-- Behind the task of a chunk all its reads have completed. -/
theorem result_of_read {c : ℕ} (hc : (c : ℤ) ∉ s.tasks.map Task.chunkId)
    (hle : (c : ℤ) ≤ s.loader.chunkReading) {r : Read} (hr : r ∈ l.reads c) :
    ∃ result, (r, result) ∈ s.results := by
  have hmem := h.accounted.perm.mem_iff.mpr (Load.mem_readsUpTo.mpr ⟨c, by omega, hr⟩)
  rcases List.mem_append.mp hmem with hout | hdone
  · exact absurd (Load.chunkId_of_mem_reads hr ▸ h.accounted.due r hout) hc
  · obtain ⟨⟨r', result⟩, he, rfl⟩ := List.mem_map.mp hdone
    exact ⟨result, List.mem_append_right _ he⟩

end Pipeline.Kept

/-! ## The turns of a rank -/

/-- `p` is what `post_read_chunk` computes of a chunk of the layout. -/
def Load.Params (l : Load) (p : ChunkIOParams) : Prop :=
  0 ≤ p.chunkId ∧ ∃ chunk, l.layout.chunks[p.chunkId.toNat]? = some chunk ∧
    p = chunkIOParams l.geometry l.args p.chunkId chunk

namespace Rank

variable [IoEvent] {α : Type} {l : Load} {gets : List ℕ} {file : ℕ → ℕ → α} {sent : ℕ → List (ℕ → α)}
  {s s' : Rank α}

/-- The states a rank can move to. -/
inductive Moved (l : Load) (file : ℕ → ℕ → α) (sent : ℕ → List (ℕ → α)) (s : Rank α) : Rank α → Prop
  | same {pipeline : Pipeline} : Pipeline.Same s.pipeline pipeline →
      pipeline.loader.stop = s.pipeline.loader.stop → Moved l file sent s { s with pipeline }
  | close {pipeline : Pipeline} (junk : ℕ → α) : Pipeline.Same s.pipeline pipeline →
      s.pipeline.loader.stop = false → pipeline.loader.stop = true → s.pipeline.waiting = [] →
      Moved l file sent s { s with pipeline, memory := { host := junk, device := junk } }
  | post {pipeline : Pipeline} :
      pipeline.tasks.map Task.chunkId
        = s.pipeline.tasks.map Task.chunkId ++ [s.pipeline.loader.chunkReading + 1] →
      pipeline.waiting = s.pipeline.waiting ++ [s.pipeline.loader.chunkReading + 1] →
      pipeline.loader.chunkReading = s.pipeline.loader.chunkReading + 1 →
      pipeline.loader.stop = false → s.pipeline.loader.stop = false →
      (∀ e, e ∈ pipeline.results ↔ e ∈ s.pipeline.results) → Moved l file sent s { s with pipeline }
  | complete {pipeline : Pipeline} {r : Read} {result : ℤ} (junk : ℕ → α) :
      r ∈ s.pipeline.inFlight → result ≤ r.request → pipeline.tasks = s.pipeline.tasks →
      pipeline.waiting = s.pipeline.waiting → pipeline.loader = s.pipeline.loader →
      (∀ e, e ∈ pipeline.results ↔ e = (r, result) ∨ e ∈ s.pipeline.results) →
      Moved l file sent s { s with
        pipeline
        memory := s.memory.put l.args.backend (r.landed file result) junk }
  | launch {pipeline : Pipeline} {task : Task} {p : ChunkIOParams} :
      s.pipeline.tasks = task :: pipeline.tasks → pipeline.waiting = s.pipeline.waiting →
      pipeline.loader = s.pipeline.loader →
      (∀ e, e ∈ pipeline.results ↔ e ∈ s.pipeline.results) → l.Params p → p.chunkId = task.chunkId →
      Moved l file sent s { s with
        pipeline
        copies := if l.args.backend = Backend.CUFILE then s.copies else s.copies ++ [p]
        gathers := if 1 < l.args.worldSize then s.gathers ++ [p] else s.gathers }
  | waited {pipeline : Pipeline} {chunkId : ℤ} : pipeline.tasks = s.pipeline.tasks →
      s.pipeline.waiting = chunkId :: pipeline.waiting → pipeline.loader = s.pipeline.loader →
      (∀ e, e ∈ pipeline.results ↔ e ∈ s.pipeline.results) →
      chunkId ∉ s.pipeline.tasks.map Task.chunkId →
      (∀ p ∈ s.copies ++ s.gathers, p.chunkId ≠ chunkId) → Moved l file sent s { s with pipeline }
  | transfer {r : Read} (junk : ℕ → α) : r ∈ s.pipeline.inFlight →
      Moved l file sent s { s with
        memory := s.memory.put l.args.backend (r.landed file 0) junk }
  | copy {p : ChunkIOParams} {copies : List ChunkIOParams} : s.copies = p :: copies →
      Moved l file sent s { s with copies, memory := s.memory.copy l.args p }
  | send {p : ChunkIOParams} {gathers : List ChunkIOParams} : s.gathers = p :: gathers →
      s.sent.length = s.gathered.length → (∀ q ∈ s.copies, q.chunkId ≠ p.chunkId) →
      Moved l file sent s { s with sent := s.sent ++ [fun i => s.memory.device (p.rankDst + i)] }
  | receive {p : ChunkIOParams} {gathers : List ChunkIOParams} {pieces : ℕ → ℕ → α} :
      s.gathers = p :: gathers →
      (∀ q < l.args.worldSize, (sent q)[s.gathered.length]? = some (pieces q)) →
      Moved l file sent s { s with
        gathers
        gathered := s.gathered ++ [p]
        memory := s.memory.gather l.args.worldSize p pieces }

theorem thread_cases (hkept : Pipeline.Kept l gets s.pipeline) {t : Turn} {junk : ℕ → α}
    (hnext : s.next l file sent (.thread t junk) = some s') :
    Pipeline.next l.pageSize l.args t s.pipeline = some s'.pipeline ∧ Moved l file sent s s' := by
  unfold next at hnext
  simp only at hnext
  split at hnext
  · next hsync =>
    obtain ⟨pipeline, hturn, rfl⟩ := Option.map_eq_some_iff.mp hnext
    refine ⟨hturn, ?_⟩
    cases hkept.shift hturn with
    | keep hcomplete hcuda hwait hsame hstop =>
        have heffect : s.effect l file junk t pipeline = s := by
          cases t with
          | loader arrived => simp [effect, hstop]
          | complete r result => exact absurd rfl (hcomplete r result)
          | cudaDone => exact absurd rfl hcuda
          | _ => rfl
        rw [heffect]
        exact .same hsame hstop
    | @close arrived _ _ hsame hopen hstop hidle =>
        have heffect : s.effect l file junk (.loader arrived) pipeline
            = { s with memory := { host := junk, device := junk } } := by
          simp [effect, hopen, hstop]
        rw [heffect]
        exact .close junk hsame hopen hstop hidle
    | @post arrived _ _ htasks hwaiting hreading hnow hopen hresults =>
        have heffect : s.effect l file junk (.loader arrived) pipeline = s := by
          simp [effect, hnow]
        rw [heffect]
        exact .post htasks hwaiting hreading hnow hopen hresults
    | complete hr hle htasks hwaiting hloader hresults =>
        exact .complete junk hr hle htasks hwaiting hloader hresults
    | @cudaDone task rest _ _ hcuda htasks hwaiting hloader hresults =>
        have htask : task ∈ s.pipeline.tasks := htasks ▸ List.mem_cons_self
        obtain ⟨hgt, hle⟩ := hkept.accounted.between _ (hkept.accounted.mem_waiting htask)
        have hge := hkept.ge.1
        obtain ⟨chunk, hchunk, hlayout⟩ := hkept.chunk_of_posted (by omega) hle
        have hp : l.Params (chunkIOParams l.geometry l.args task.chunkId chunk) :=
          ⟨show 0 ≤ task.chunkId by omega, chunk, hlayout, rfl⟩
        have heffect : s.effect l file junk .cudaDone pipeline = { s with
            copies := if l.args.backend = Backend.CUFILE then s.copies
              else s.copies ++ [chunkIOParams l.geometry l.args task.chunkId chunk]
            gathers := if 1 < l.args.worldSize
              then s.gathers ++ [chunkIOParams l.geometry l.args task.chunkId chunk]
              else s.gathers } := by
          simp only [effect, launch, hcuda, hchunk]
        rw [heffect]
        exact .launch htasks hwaiting hloader hresults hp rfl
    | waitDone hwait htasks hwaiting hloader hresults hnot =>
        refine .waited htasks hwaiting hloader hresults hnot fun p hp => ?_
        simp only [synchronized, hwait] at hsync
        simpa using List.all_eq_true.mp hsync p hp
  · cases hnext

theorem stream_cases {t : RankTurn α} (ht : ∀ t' junk, t ≠ .thread t' junk)
    (hnext : s.next l file sent t = some s') :
    s'.pipeline = s.pipeline ∧ Moved l file sent s s' := by
  unfold next at hnext
  cases t with
  | thread t' junk => exact absurd rfl (ht t' junk)
  | transfer r junk =>
      simp only at hnext
      split at hnext
      · next hr =>
        cases hnext
        exact ⟨rfl, .transfer junk hr⟩
      · cases hnext
  | copy =>
      simp only at hnext
      split at hnext
      · cases hnext
      · next hcopies =>
        cases hnext
        exact ⟨rfl, .copy hcopies⟩
  | send =>
      simp only at hnext
      split at hnext
      · cases hnext
      · next hgathers =>
        split at hnext
        · next hready =>
          cases hnext
          exact ⟨rfl, .send hgathers hready.1 hready.2⟩
        · cases hnext
  | receive =>
      simp only at hnext
      split at hnext
      · cases hnext
      · next hgathers =>
        split at hnext
        · next hsent =>
          cases hnext
          refine ⟨rfl, .receive hgathers fun q hq => ?_⟩
          rw [List.getD_eq_getElem?_getD, List.getElem?_eq_getElem (hsent q hq), Option.getD_some]
        · cases hnext

/-- The process stays on a run of its own, and the rank moves in one of these ways. -/
theorem next_cases (hkept : Pipeline.Kept l gets s.pipeline) {t : RankTurn α}
    (hnext : s.next l file sent t = some s') :
    Pipeline.Kept l gets s'.pipeline ∧ Moved l file sent s s' := by
  cases t with
  | thread t' junk =>
      obtain ⟨hturn, hmoved⟩ := thread_cases hkept hnext
      exact ⟨hkept.step ⟨t', hturn⟩, hmoved⟩
  | _ =>
      obtain ⟨hpipeline, hmoved⟩ := stream_cases (fun _ _ h => by cases h) hnext
      exact ⟨hpipeline ▸ hkept, hmoved⟩

end Rank

end InstantTensor
