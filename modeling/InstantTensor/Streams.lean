/-
# `InstantTensor.Streams` — the order of what a rank queues on its GPU

Chunks go through a rank in the order of their numbers: they are posted, their task of `cuda_thread`
queues the copy and the all-gather, the streams execute these, and the task of `wait_thread` returns
behind both.  So at any time each of the queues is a span of numbers, and four counters say
where it begins (`Rank.done`, `Rank.delivered`, `Rank.copied`, `Rank.launched`); they stand in this
order between the loader's own two, `chunk_read` and `chunk_reading` (`Rank.Streamed`).

That NCCL matches calls by their order is then no danger: the `k`-th all-gather of every rank is the
one of chunk `k`, with the same length, and a rank has received it only if all ranks have sent
it (`Load.gathers_match`).
-/
import InstantTensor.Lib.Spans
import InstantTensor.RankTurns

namespace InstantTensor

namespace Rank

variable {α : Type} {l : Load} {file : ℕ → ℕ → α} {sent : ℕ → List (ℕ → α)} {s s' : Rank α}

/-! ## The counters of a rank -/

section
variable (s : Rank α)

/-- The last chunk whose task of `wait_thread` has returned. -/
def done : ℤ := s.pipeline.loader.chunkReading - s.pipeline.waiting.length

/-- The last chunk whose task of `cuda_thread` has returned. -/
def launched : ℤ := s.pipeline.loader.chunkReading - s.pipeline.tasks.length

/-- The last chunk copied to the device. -/
def copied : ℤ := s.launched - s.copies.length

/-- The last chunk the streams are through with. -/
def delivered : ℤ := s.launched - max (s.copies.length : ℤ) s.gathers.length

end

/-- Every queue of a rank is a span, between counters that stand in this order. -/
structure Streamed (l : Load) (s : Rank α) : Prop where
  tasks : s.pipeline.tasks.map Task.chunkId = span s.launched s.pipeline.loader.chunkReading
  waiting : s.pipeline.waiting = span s.done s.pipeline.loader.chunkReading
  copies : s.copies.map ChunkIOParams.chunkId = span s.copied s.launched
  gathers : s.gathers.map ChunkIOParams.chunkId
    = if 1 < l.args.worldSize then span (s.launched - s.gathers.length) s.launched else []
  gathered : s.gathered.map ChunkIOParams.chunkId
    = if 1 < l.args.worldSize then span (-1) (s.launched - s.gathers.length) else []
  params : ∀ p ∈ s.copies ++ s.gathers ++ s.gathered, l.Params p
  cufile : l.args.backend = Backend.CUFILE → s.copies = []
  done_ge : -1 ≤ s.done
  done_le : s.done ≤ s.delivered
  sent_ge : s.gathered.length ≤ s.sent.length
  sent_le : s.sent.length ≤ s.gathered.length + s.gathers.length
  sent_copied : (s.sent.length : ℤ) - 1 ≤ s.copied
  closed : s.pipeline.loader.stop = true → s.pipeline.waiting = []

namespace Streamed

theorem delivered_le (s : Rank α) : s.delivered ≤ s.copied ∧ s.copied ≤ s.launched ∧
    s.launched ≤ s.pipeline.loader.chunkReading := by
  unfold delivered copied launched
  omega

/-- Without a chunk to wait for the streams are idle. -/
theorem idle (h : Streamed l s) (hwaiting : s.pipeline.waiting = []) : s.gathers = [] := by
  have hle := h.done_le
  have hlaunched := (delivered_le s).2.2
  unfold done delivered at hle
  rw [hwaiting, List.length_nil] at hle
  exact List.eq_nil_of_length_eq_zero (by omega)

/-- A rank by itself has no all-gathers. -/
theorem gathers_alone (h : Streamed l s) (hw : ¬ 1 < l.args.worldSize) :
    s.gathers = [] ∧ s.gathered = [] := by
  have hgathers := h.gathers
  have hgathered := h.gathered
  rw [if_neg hw] at hgathers hgathered
  exact ⟨List.map_eq_nil_iff.mp hgathers, List.map_eq_nil_iff.mp hgathered⟩

theorem length_gathered (h : Streamed l s) (hw : 1 < l.args.worldSize) :
    (s.gathered.length : ℤ) = s.launched - s.gathers.length + 1 := by
  have hlen := congrArg List.length h.gathered
  rw [if_pos hw, List.length_map] at hlen
  by_cases hge : -1 ≤ s.launched - s.gathers.length
  · have hspan := length_span hge
    omega
  · -- then there are more all-gathers queued than chunks launched
    have hqueue := congrArg List.length h.gathers
    rw [if_pos hw, List.length_map] at hqueue
    have hcopied := h.sent_copied
    have := h.sent_ge
    have := delivered_le s
    have hdone := h.done_ge
    have := h.done_le
    unfold delivered at *
    omega

/-- The chunk of the next all-gather is the one of its number. -/
theorem gathers_head (h : Streamed l s) {p : ChunkIOParams} {gathers : List ChunkIOParams}
    (hgathers : s.gathers = p :: gathers) :
    1 < l.args.worldSize ∧ p.chunkId = s.gathered.length := by
  have hw : 1 < l.args.worldSize := by
    by_contra hw
    rw [(h.gathers_alone hw).1] at hgathers
    cases hgathers
  have hlen := h.length_gathered hw
  have hspan := h.gathers
  rw [if_pos hw, hgathers, List.map_cons, List.length_cons] at hspan
  rw [hgathers, List.length_cons] at hlen
  obtain ⟨-, hid, -⟩ := span_eq_cons hspan.symm
  exact ⟨hw, by omega⟩

/-- A turn that leaves the queues as they are. -/
theorem congr (h : Streamed l s) (htasks : s'.pipeline.tasks.map Task.chunkId
      = s.pipeline.tasks.map Task.chunkId) (hwaiting : s'.pipeline.waiting = s.pipeline.waiting)
    (hreading : s'.pipeline.loader.chunkReading = s.pipeline.loader.chunkReading)
    (hcopies : s'.copies = s.copies) (hgathers : s'.gathers = s.gathers)
    (hgathered : s'.gathered = s.gathered) (hsent : s'.sent.length = s.sent.length)
    (hstop : s'.pipeline.loader.stop = true → s'.pipeline.waiting = []) : Streamed l s' := by
  have hlen : s'.pipeline.tasks.length = s.pipeline.tasks.length := by
    simpa using congrArg List.length htasks
  have hlaunched : s'.launched = s.launched := by rw [launched, launched, hreading, hlen]
  have hdone : s'.done = s.done := by rw [done, done, hreading, hwaiting]
  have hcopied : s'.copied = s.copied := by rw [copied, copied, hlaunched, hcopies]
  have hdelivered : s'.delivered = s.delivered := by
    rw [delivered, delivered, hlaunched, hcopies, hgathers]
  constructor
  case tasks => rw [htasks, hlaunched, hreading, h.tasks]
  case waiting => rw [hwaiting, hdone, hreading, h.waiting]
  case copies => rw [hcopies, hcopied, hlaunched, h.copies]
  case gathers => rw [hgathers, hlaunched, h.gathers]
  case gathered => rw [hgathered, hgathers, hlaunched, h.gathered]
  case params => rw [hcopies, hgathers, hgathered]; exact h.params
  case cufile => rw [hcopies]; exact h.cufile
  case done_ge => exact hdone ▸ h.done_ge
  case done_le => exact hdone ▸ hdelivered ▸ h.done_le
  case sent_ge => rw [hgathered, hsent]; exact h.sent_ge
  case sent_le => rw [hgathered, hgathers, hsent]; exact h.sent_le
  case sent_copied => rw [hsent, hcopied]; exact h.sent_copied
  case closed => exact hstop

theorem post (h : Streamed l s) {pipeline : Pipeline}
    (htasks : pipeline.tasks.map Task.chunkId
      = s.pipeline.tasks.map Task.chunkId ++ [s.pipeline.loader.chunkReading + 1])
    (hwaiting : pipeline.waiting = s.pipeline.waiting ++ [s.pipeline.loader.chunkReading + 1])
    (hreading : pipeline.loader.chunkReading = s.pipeline.loader.chunkReading + 1)
    (hopen : pipeline.loader.stop = false) : Streamed l { s with pipeline } := by
  obtain ⟨hdelivered, hcopied, hlaunched⟩ := delivered_le s
  have hdone := h.done_le
  have hlen : pipeline.tasks.length = s.pipeline.tasks.length + 1 := by
    simpa using congrArg List.length htasks
  have hlaunched' : ({ s with pipeline } : Rank α).launched = s.launched := by
    simp only [launched, hreading, hlen]
    omega
  have hdone' : ({ s with pipeline } : Rank α).done = s.done := by
    simp only [done, hreading, hwaiting, List.length_append, List.length_singleton]
    omega
  refine { h with
    tasks := ?_
    waiting := ?_
    copies := ?_
    gathers := ?_
    gathered := ?_
    done_ge := hdone' ▸ h.done_ge
    done_le := ?_
    sent_copied := ?_
    closed := fun hstop => absurd (hopen.symm.trans hstop) (by decide) }
  · rw [hlaunched', htasks, h.tasks, hreading, span_concat hlaunched]
  · rw [hdone', hwaiting, h.waiting, hreading, span_concat (by omega)]
  · rw [copied, hlaunched']
    exact h.copies
  · rw [hlaunched']
    exact h.gathers
  · rw [hlaunched']
    exact h.gathered
  · rw [hdone', delivered, hlaunched']
    exact hdone
  · rw [copied, hlaunched']
    exact h.sent_copied

theorem launch (h : Streamed l s) {pipeline : Pipeline} {task : Task} {p : ChunkIOParams}
    (htasks : s.pipeline.tasks = task :: pipeline.tasks)
    (hwaiting : pipeline.waiting = s.pipeline.waiting)
    (hloader : pipeline.loader = s.pipeline.loader) (hp : l.Params p)
    (hid : p.chunkId = task.chunkId) :
    Streamed l { s with
      pipeline
      copies := if l.args.backend = Backend.CUFILE then s.copies else s.copies ++ [p]
      gathers := if 1 < l.args.worldSize then s.gathers ++ [p] else s.gathers } := by
  set s₁ : Rank α := { s with
    pipeline
    copies := if l.args.backend = Backend.CUFILE then s.copies else s.copies ++ [p]
    gathers := if 1 < l.args.worldSize then s.gathers ++ [p] else s.gathers } with hs₁
  have hspan := h.tasks
  rw [htasks, List.map_cons] at hspan
  obtain ⟨-, htask, hrest⟩ := span_eq_cons hspan.symm
  have hlen : s.pipeline.tasks.length = pipeline.tasks.length + 1 := congrArg List.length htasks
  have hlaunched : s₁.launched = s.launched + 1 := by
    simp only [launched, hs₁, hloader, hlen]
    omega
  have hdone : s₁.done = s.done := by
    simp only [done, hs₁, hloader, hwaiting]
  have hcopies : s₁.copies = s.copies ∨ s₁.copies = s.copies ++ [p] := by
    simp only [hs₁]
    split
    · exact .inl rfl
    · exact .inr rfl
  have hgathers : s₁.gathers = s.gathers ∨ s₁.gathers = s.gathers ++ [p] := by
    simp only [hs₁]
    split
    · exact .inr rfl
    · exact .inl rfl
  have hle := delivered_le s
  have hcopiesLen : s₁.copies.length ≤ s.copies.length + 1 := by
    rcases hcopies with h | h <;> simp [h]
  have hgathersLen : s₁.gathers.length ≤ s.gathers.length + 1 := by
    rcases hgathers with h | h <;> simp [h]
  have hgathersGe : s.gathers.length ≤ s₁.gathers.length := by
    rcases hgathers with h | h <;> simp [h]
  have hcopied : s.copied ≤ s₁.copied := by
    unfold copied
    omega
  have hdelivered : s.delivered ≤ s₁.delivered := by
    unfold delivered
    omega
  refine { h with
    tasks := by rw [hlaunched, hrest, hs₁, hloader]
    waiting := by rw [hdone]; simp only [hs₁, hwaiting, hloader, h.waiting]
    copies := ?_
    gathers := ?_
    gathered := ?_
    params := ?_
    cufile := fun hb => by simp only [hs₁, if_pos hb, h.cufile hb]
    done_ge := hdone ▸ h.done_ge
    done_le := hdone ▸ Int.le_trans h.done_le hdelivered
    sent_le := Nat.le_trans h.sent_le (Nat.add_le_add_left hgathersGe _)
    sent_copied := Int.le_trans h.sent_copied hcopied
    closed := fun hstop => hwaiting.trans (h.closed (hloader ▸ hstop)) }
  · rw [copied, hlaunched]
    by_cases hb : l.args.backend = Backend.CUFILE
    · simp only [hs₁, if_pos hb, h.cufile hb, List.map_nil, List.length_nil]
      exact (span_of_le (by omega)).symm
    · simp only [hs₁, if_neg hb, List.map_append, List.map_singleton, List.length_append,
        List.length_singleton, h.copies]
      rw [show s.launched + 1 - ((s.copies.length + 1 : ℕ) : ℤ) = s.copied by
        unfold copied; omega, span_concat hle.2.1, hid, htask]
  · rw [hlaunched]
    by_cases hw : 1 < l.args.worldSize
    · have hgathers := h.gathers
      rw [if_pos hw] at hgathers
      simp only [hs₁, if_pos hw, List.map_append, List.map_singleton, List.length_append,
        List.length_singleton, hgathers]
      rw [show s.launched + 1 - ((s.gathers.length + 1 : ℕ) : ℤ)
        = s.launched - s.gathers.length by omega, span_concat (by omega), hid, htask]
    · simp only [hs₁, if_neg hw, (h.gathers_alone hw).1, List.map_nil]
  · have hgathered := h.gathered
    rw [hlaunched]
    by_cases hw : 1 < l.args.worldSize
    · rw [if_pos hw] at hgathered
      simp only [hs₁, if_pos hw, List.length_append, List.length_singleton, hgathered]
      congr 1
      omega
    · rw [if_neg hw] at hgathered ⊢
      exact hgathered
  · intro q hq
    have hcases : q = p ∨ q ∈ s.copies ++ s.gathers ++ s.gathered := by
      simp only [List.mem_append] at hq ⊢
      rcases hq with (hq | hq) | hq
      · rcases hcopies with h | h <;> simp only [h, List.mem_append, List.mem_singleton] at hq <;> tauto
      · rcases hgathers with h | h <;> simp only [h, List.mem_append, List.mem_singleton] at hq <;> tauto
      · exact .inr (.inr hq)
    rcases hcases with rfl | hq
    · exact hp
    · exact h.params q hq

theorem waited (h : Streamed l s) {pipeline : Pipeline} {chunkId : ℤ}
    (htasks : pipeline.tasks = s.pipeline.tasks)
    (hwaiting : s.pipeline.waiting = chunkId :: pipeline.waiting)
    (hloader : pipeline.loader = s.pipeline.loader)
    (hnot : chunkId ∉ s.pipeline.tasks.map Task.chunkId)
    (hsync : ∀ p ∈ s.copies ++ s.gathers, p.chunkId ≠ chunkId) :
    Streamed l { s with pipeline } := by
  obtain ⟨hlt, hid, hrest⟩ := span_eq_cons (h.waiting.symm.trans hwaiting)
  have hle := delivered_le s
  have hlaunched : ({ s with pipeline } : Rank α).launched = s.launched := by
    simp only [launched, htasks, hloader]
  have hlen : s.pipeline.waiting.length = pipeline.waiting.length + 1 :=
    congrArg List.length hwaiting
  have hdone : ({ s with pipeline } : Rank α).done = s.done + 1 := by
    simp only [done, hloader, hlen]
    omega
  -- no queue in front of `wait_thread` holds the chunk, and all that are behind it have passed
  have htask : chunkId ≤ s.launched := by
    rw [h.tasks, mem_span] at hnot
    omega
  have hcopy : chunkId ≤ s.copied := by
    by_contra hgt
    have hmem : chunkId ∈ s.copies.map ChunkIOParams.chunkId := by
      rw [h.copies, mem_span]
      omega
    obtain ⟨p, hp, hpid⟩ := List.mem_map.mp hmem
    exact hsync p (List.mem_append_left _ hp) hpid
  have hgather : chunkId ≤ s.launched - s.gathers.length := by
    by_cases hw : 1 < l.args.worldSize
    · by_contra hgt
      have hmem : chunkId ∈ s.gathers.map ChunkIOParams.chunkId := by
        rw [h.gathers, if_pos hw, mem_span]
        omega
      obtain ⟨p, hp, hpid⟩ := List.mem_map.mp hmem
      exact hsync p (List.mem_append_right _ hp) hpid
    · rw [(h.gathers_alone hw).1, List.length_nil]
      omega
  have hge := h.done_ge
  refine { h with
    tasks := by rw [hlaunched, htasks, hloader]; exact h.tasks
    waiting := by rw [hdone, hrest, hloader]
    copies := by rw [copied, hlaunched]; exact h.copies
    gathers := by rw [hlaunched]; exact h.gathers
    gathered := by rw [hlaunched]; exact h.gathered
    done_ge := by rw [hdone]; omega
    done_le := ?_
    sent_copied := by rw [copied, hlaunched]; exact h.sent_copied
    closed := fun hstop => by rw [h.closed (hloader ▸ hstop)] at hwaiting; cases hwaiting }
  rw [hdone, delivered, hlaunched]
  unfold copied at hcopy
  simp only
  omega

theorem copy (h : Streamed l s) {p : ChunkIOParams} {copies : List ChunkIOParams}
    (hcopies : s.copies = p :: copies) (memory : RankMemory α) :
    Streamed l { s with copies, memory } := by
  have hspan := h.copies
  rw [hcopies, List.map_cons] at hspan
  obtain ⟨-, -, hrest⟩ := span_eq_cons hspan.symm
  have hlen : s.copies.length = copies.length + 1 := congrArg List.length hcopies
  have hcopied : ({ s with copies, memory } : Rank α).copied = s.copied + 1 := by
    simp only [copied, launched, hlen]
    omega
  have hdone := h.done_le
  have hsent := h.sent_copied
  refine { h with
    copies := by rw [hcopied]; exact hrest
    params := fun q hq => h.params q ?_
    cufile := fun hb => by rw [h.cufile hb] at hcopies; cases hcopies
    done_le := ?_
    sent_copied := by rw [hcopied]; simp only; omega }
  · simp only [hcopies, List.mem_append, List.mem_cons] at hq ⊢
    tauto
  · change s.done ≤ s.launched - max (copies.length : ℤ) s.gathers.length
    unfold delivered at hdone
    omega

theorem send (h : Streamed l s) {p : ChunkIOParams} {gathers : List ChunkIOParams}
    (hgathers : s.gathers = p :: gathers) (hlen : s.sent.length = s.gathered.length)
    (hcopies : ∀ q ∈ s.copies, q.chunkId ≠ p.chunkId) (piece : ℕ → α) :
    Streamed l { s with sent := s.sent ++ [piece] } := by
  obtain ⟨hw, hid⟩ := h.gathers_head hgathers
  have hge := h.length_gathered hw
  have hcopied : p.chunkId ≤ s.copied := by
    by_contra hgt
    have hmem : p.chunkId ∈ s.copies.map ChunkIOParams.chunkId := by
      rw [hgathers, List.length_cons] at hge
      rw [h.copies, mem_span]
      omega
    obtain ⟨q, hq, hqid⟩ := List.mem_map.mp hmem
    exact hcopies q hq hqid
  refine { h with sent_ge := ?_, sent_le := ?_, sent_copied := ?_ }
  · simp only [List.length_append, List.length_singleton]
    omega
  · simp only [hgathers, List.length_append, List.length_cons, List.length_nil]
    omega
  · change ((s.sent ++ [piece]).length : ℤ) - 1 ≤ s.copied
    simp only [List.length_append, List.length_singleton]
    omega

theorem receive (h : Streamed l s) {p : ChunkIOParams} {gathers : List ChunkIOParams}
    (hgathers : s.gathers = p :: gathers) (hsent : s.gathered.length < s.sent.length)
    (memory : RankMemory α) :
    Streamed l { s with gathers, gathered := s.gathered ++ [p], memory } := by
  obtain ⟨hw, hid⟩ := h.gathers_head hgathers
  have hlen := h.length_gathered hw
  have hqueue : s.gathers.length = gathers.length + 1 := congrArg List.length hgathers
  have hspan := h.gathers
  rw [if_pos hw, hgathers, List.map_cons] at hspan
  obtain ⟨-, -, hrest⟩ := span_eq_cons hspan.symm
  have hdone := h.done_le
  refine { h with
    gathers := ?_
    gathered := ?_
    params := fun q hq => h.params q ?_
    done_le := ?_
    sent_ge := by simpa using Nat.succ_le_of_lt hsent
    sent_le := ?_ }
  · rw [if_pos hw]
    change _ = span (s.launched - gathers.length) s.launched
    rw [hrest]
    congr 1
    simp only [List.length_cons]
    omega
  · have hgathered := h.gathered
    rw [if_pos hw] at hgathered ⊢
    change (s.gathered ++ [p]).map ChunkIOParams.chunkId = span (-1) (s.launched - gathers.length)
    rw [List.map_append, hgathered, List.map_singleton, hid,
      show s.launched - (gathers.length : ℤ) = s.launched - s.gathers.length + 1 by omega,
      span_concat (by omega), show s.launched - (s.gathers.length : ℤ) + 1 = s.gathered.length by
        omega]
  · simp only [hgathers, List.mem_append, List.mem_cons, List.not_mem_nil, or_false] at hq ⊢
    tauto
  · change s.done ≤ s.launched - max (s.copies.length : ℤ) gathers.length
    unfold delivered at hdone
    omega
  · have hle := h.sent_le
    simp only [List.length_append, List.length_singleton]
    omega

/-- A rank that moves keeps its queues in order. -/
theorem moved (h : Streamed l s) (hown : l.args.rank < l.args.worldSize)
    (hsent : sent l.args.rank = s.sent) (hmoved : Moved l file sent s s') : Streamed l s' := by
  cases hmoved with
  | same hsame hstop =>
      exact h.congr hsame.tasks hsame.waiting hsame.reading rfl rfl rfl rfl
        fun hclosed => hsame.waiting.trans (h.closed (hstop.symm.trans hclosed))
  | close junk hsame _ _ hidle =>
      exact h.congr hsame.tasks hsame.waiting hsame.reading rfl rfl rfl rfl
        fun _ => hsame.waiting.trans hidle
  | post htasks hwaiting hreading hopen => exact h.post htasks hwaiting hreading hopen
  | complete junk _ _ htasks hwaiting hloader =>
      exact h.congr (congrArg _ htasks) hwaiting (congrArg _ hloader) rfl rfl rfl rfl
        fun hclosed => hwaiting.trans (h.closed (hloader ▸ hclosed))
  | launch htasks hwaiting hloader _ hp hid => exact h.launch htasks hwaiting hloader hp hid
  | waited htasks hwaiting hloader _ hnot hsync => exact h.waited htasks hwaiting hloader hnot hsync
  | transfer => exact h.congr rfl rfl rfl rfl rfl rfl rfl h.closed
  | copy hcopies => exact h.copy hcopies _
  | send hgathers hlen hcopies => exact h.send hgathers hlen hcopies _
  | receive hgathers hpieces =>
      refine h.receive hgathers ?_ _
      rw [← hsent]
      exact (List.getElem?_eq_some_iff.mp (hpieces _ hown)).1

end Streamed

end Rank

/-! ## Runs of the group -/

section
variable {α : Type} {l : Load} {backends : ℕ → Backend} {gets : ℕ → List ℕ} {file : ℕ → ℕ → α}
  {memory : ℕ → RankMemory α} {s s' : ℕ → Rank α}

/-- What holds of rank `r` whatever the bytes are. -/
structure Ranks.KeptAt (l : Load) (backends : ℕ → Backend) (gets : ℕ → List ℕ) (s : ℕ → Rank α)
    (r : ℕ) : Prop where
  pipeline : Pipeline.Kept (l.atRank (backends r) r) (gets r) (s r).pipeline
  streamed : (s r).Streamed (l.atRank (backends r) r)

/-- A turn of the group is one of a single rank. -/
theorem Ranks.next_cases (hkept : ∀ r < l.args.worldSize, KeptAt l backends gets s r)
    {t : ℕ × RankTurn α} (hnext : Ranks.next l backends file t s = some s') :
    t.1 < l.args.worldSize ∧ ∃ s₁, s' = Function.update s t.1 s₁ ∧
      Pipeline.Kept (l.atRank (backends t.1) t.1) (gets t.1) s₁.pipeline ∧
      (s t.1).Moved (l.atRank (backends t.1) t.1) file (fun q => (s q).sent) s₁ := by
  unfold Ranks.next at hnext
  split at hnext
  · next hr =>
    obtain ⟨s₁, hturn, rfl⟩ := Option.map_eq_some_iff.mp hnext
    exact ⟨hr, s₁, rfl, Rank.next_cases (hkept _ hr).pipeline hturn⟩
  · cases hnext

theorem Ranks.kept_step (hkept : ∀ r < l.args.worldSize, KeptAt l backends gets s r)
    (hstep : Step (Ranks.next l backends file) s s') :
    ∀ r < l.args.worldSize, KeptAt l backends gets s' r := by
  obtain ⟨t, hnext⟩ := hstep
  obtain ⟨hr, s₁, rfl, hpipeline, hmoved⟩ := Ranks.next_cases hkept hnext
  intro r' hr'
  by_cases heq : r' = t.1
  · subst heq
    have hstreamed := (hkept _ hr).streamed.moved hr rfl hmoved
    constructor
    · rw [Function.update_self]
      exact hpipeline
    · rw [Function.update_self]
      exact hstreamed
  · have hsame : Function.update s t.1 s₁ r' = s r' := Function.update_of_ne heq _ _
    constructor
    · rw [hsame]
      exact (hkept r' hr').pipeline
    · rw [hsame]
      exact (hkept r' hr').streamed

theorem Load.ranks_kept (l : Load) (backends : ℕ → Backend) (gets : ℕ → List ℕ)
    (memory : ℕ → RankMemory α) (r : ℕ) :
    Ranks.KeptAt l backends gets (l.ranks backends gets memory) r where
  pipeline := ⟨Run.refl _, (l.atRank (backends r) r).pipeline_accounted (gets r)⟩
  streamed := by
    constructor
    case gathers => exact (ite_self _).symm
    case gathered => exact (ite_self _).symm
    case params => exact fun _ hp => absurd hp List.not_mem_nil
    case cufile => exact fun _ => rfl
    case sent_le => exact Nat.zero_le _
    case closed => exact fun _ => rfl
    all_goals first | exact Nat.le_refl _ | exact Int.le_refl _ | rfl

theorem Load.run_ranks (h : Run (Ranks.next l backends file) (l.ranks backends gets memory) s) :
    ∀ r < l.args.worldSize, Ranks.KeptAt l backends gets s r :=
  Run.invariant (fun _ _ hkept hstep => Ranks.kept_step hkept hstep) h
    fun r _ => l.ranks_kept backends gets memory r

/-- All all-gathers a rank has called so far. -/
def Rank.calls (s : Rank α) : List ChunkIOParams := s.gathered ++ s.gathers

theorem Rank.Streamed.calls {l : Load} {s : Rank α} (h : s.Streamed l) {k : ℕ} {p : ChunkIOParams}
    (hp : s.calls[k]? = some p) : p.chunkId = k ∧ l.Params p := by
  have hmem := List.mem_of_getElem? hp
  have hparams := h.params p (by
    simp only [Rank.calls, List.mem_append] at hmem ⊢
    tauto)
  refine ⟨?_, hparams⟩
  have hw : 1 < l.args.worldSize := by
    by_contra hw
    obtain ⟨hgathers, hgathered⟩ := h.gathers_alone hw
    rw [Rank.calls, hgathers, hgathered] at hmem
    cases hmem
  have hlen := h.length_gathered hw
  have hspan : s.calls.map ChunkIOParams.chunkId = span (-1) s.launched := by
    rw [Rank.calls, List.map_append, h.gathers, h.gathered, if_pos hw, if_pos hw]
    exact (span_append (by omega) (by omega))
  have hk := congrArg (·[k]?) hspan
  simp only [List.getElem?_map, hp, Option.map_some] at hk
  have hid := getElem?_span hk.symm
  omega

/-- What a turn does to the pieces sent and to the calls that are over. -/
theorem Rank.Moved.gathered {l : Load} {sent : ℕ → List (ℕ → α)} {s s' : Rank α}
    (hmoved : s.Moved l file sent s') : s.sent.length ≤ s'.sent.length ∧
      (s'.gathered.length = s.gathered.length ∨ s'.gathered.length = s.gathered.length + 1 ∧
        s'.sent = s.sent ∧ ∀ q < l.args.worldSize, s.gathered.length < (sent q).length) := by
  cases hmoved with
  | send =>
      refine ⟨?_, .inl rfl⟩
      simp only [List.length_append]
      omega
  | receive hgathers hpieces =>
      refine ⟨Nat.le_refl _, .inr ⟨by simp, rfl, fun q hq => ?_⟩⟩
      exact (List.getElem?_eq_some_iff.mp (hpieces q hq)).1
  | _ => exact ⟨Nat.le_refl _, .inl rfl⟩

/-- No call is over before all ranks have sent their piece for it. -/
theorem Load.run_gathered (h : Run (Ranks.next l backends file) (l.ranks backends gets memory) s)
    {r r' : ℕ} (hr : r < l.args.worldSize) (hr' : r' < l.args.worldSize) :
    (s r).gathered.length ≤ (s r').sent.length := by
  refine (Run.invariant (P := fun s => (∀ r < l.args.worldSize, Ranks.KeptAt l backends gets s r) ∧
    ∀ r < l.args.worldSize, ∀ r' < l.args.worldSize, (s r).gathered.length ≤ (s r').sent.length)
    ?_ h ⟨fun r _ => l.ranks_kept backends gets memory r, fun _ _ _ _ => Nat.le_refl _⟩).2 r hr r' hr'
  rintro s s' ⟨hkept, hle⟩ hstep
  refine ⟨Ranks.kept_step hkept hstep, ?_⟩
  obtain ⟨⟨q, t⟩, hnext⟩ := hstep
  obtain ⟨hq, s₁, rfl, -, hmoved⟩ := Ranks.next_cases hkept hnext
  obtain ⟨hsent, hcases⟩ := hmoved.gathered
  have hsent : ∀ r', (s r').sent.length ≤ (Function.update s q s₁ r').sent.length := by
    intro r'
    by_cases heq : r' = q
    · rw [heq, Function.update_self]
      exact hsent
    · rw [Function.update_of_ne heq]
  intro r hr r' hr'
  by_cases heq : r = q
  · subst heq
    rw [Function.update_self]
    rcases hcases with hsame | ⟨hover, -, hall⟩
    · exact hsame ▸ Nat.le_trans (hle r hr r' hr') (hsent r')
    · exact hover ▸ Nat.le_trans (hall r' hr') (hsent r')
  · rw [Function.update_of_ne heq]
    exact Nat.le_trans (hle r hr r' hr') (hsent r')

/-- **The calls NCCL matches are for the same chunk: the `k`-th all-gather of every rank is that of
chunk `k`, into the same place and with the same length, and it is over on a rank only when all
ranks have called and sent.** -/
theorem Load.gathers_match (l : Load) (backends : ℕ → Backend) (gets : ℕ → List ℕ)
    (file : ℕ → ℕ → α) (memory : ℕ → RankMemory α) {s : ℕ → Rank α}
    (h : Run (Ranks.next l backends file) (l.ranks backends gets memory) s)
    {r r' : ℕ} (hr : r < l.args.worldSize) (hr' : r' < l.args.worldSize) :
    (∀ (k : ℕ) (p p' : ChunkIOParams), (s r).calls[k]? = some p → (s r').calls[k]? = some p' →
      p.chunkId = k ∧ p'.chunkId = k ∧ p'.allDst = p.allDst ∧
        p'.paddedRankSize = p.paddedRankSize ∧ p'.rankDst = p.allDst + p.paddedRankSize * r') ∧
    (s r).gathered.length ≤ (s r').sent.length ∧ (s r').sent.length ≤ (s r').calls.length := by
  have hkept := Load.run_ranks h
  refine ⟨fun k p p' hp hp' => ?_, Load.run_gathered h hr hr', ?_⟩
  · obtain ⟨hid, -, chunk, hchunk, hparams⟩ := (hkept r hr).streamed.calls hp
    obtain ⟨hid', -, chunk', hchunk', hparams'⟩ := (hkept r' hr').streamed.calls hp'
    have hsame : some chunk = some chunk' := by
      rw [← hchunk, ← hchunk', hid, hid']
      rfl
    cases hsame
    refine ⟨hid, hid', ?_, ?_, ?_⟩ <;> rw [hparams, hparams'] <;> rfl
  · rw [Rank.calls, List.length_append]
    exact (hkept r' hr').streamed.sent_le

end

/-! ## Two ranks -/

/-- One tensor of 4900 bytes behind a header of 100: the first page is read by rank 0, the rest by
rank 1. -/
def twoRanks : Load := Load.of 4096 {
    rank := 0
    worldSize := 2
    bufferSize := 4900
    chunkSize := 4096
    numThreads := 1
    ioDepth := 2
    backend := Backend.AIO
    tensorOffsets := [(0, 100), (0, 5000)] } (by decide)

/-- Only rank 1 has cuFile. -/
def twoBackends (r : ℕ) : Backend := if r = 0 then Backend.AIO else .CUFILE

def twoStart : ℕ → Rank ℕ :=
  twoRanks.ranks twoBackends (fun _ => List.range 1) fun _ => ⟨fun _ => 0, fun _ => 0⟩

def twoNext : ℕ × RankTurn ℕ → (ℕ → Rank ℕ) → Option (ℕ → Rank ℕ) :=
  Ranks.next twoRanks twoBackends fun _ o => o

/-- A rank reads its slice and queues its part of the all-gather. -/
def twoReads {α : Type} (junk : α) (r : ℕ) : List (ℕ × RankTurn α) :=
  (([.loader true, .loader true, .submit 1, .hand] : List Turn)
    ++ ((twoRanks.atRank (twoBackends r) r).reads 0).map (fun rd => Turn.complete rd rd.size)
    ++ [Turn.take 1, Turn.cudaDone]).map fun t => (r, .thread t fun _ => junk)

/-- A tensor of two chunks, each with a piece for either rank. -/
def twoPasses : Load := Load.of 4096 {
    twoRanks.args with bufferSize := 16000, tensorOffsets := [(0, 100), (0, 16100)] } (by decide)

/-- A rank posts both chunks, and its reads and its `cuda_thread` get through them. -/
def twoPosts (r : ℕ) : List (ℕ × RankTurn ℕ) :=
  (([.loader true, .loader true, .submit 1, .hand, .loader true, .loader true, .loader true,
      .submit 1, .hand] : List Turn)
    ++ ((List.range 2).flatMap fun c => (twoPasses.atRank (twoBackends r) r).reads c).map
      (fun rd => Turn.complete rd rd.size)
    ++ [Turn.take 1, Turn.cudaDone, Turn.take 1, Turn.cudaDone]).map
      fun t => (r, .thread t fun _ => 7)

/-- Rank 1 has called both all-gathers before rank 0 calls one, and its second waits while the first
is under way. -/
theorem gathers_match_two :
    ∃ (s : ℕ → Rank ℕ) (p p' : ChunkIOParams),
      Run (Ranks.next twoPasses twoBackends fun _ o => o)
        (twoPasses.ranks twoBackends (fun _ => List.range 1) fun _ => ⟨fun _ => 0, fun _ => 0⟩) s ∧
      (s 0).calls[1]? = some p ∧ (s 1).calls[1]? = some p' ∧ p.chunkId = 1 ∧ p'.chunkId = 1 ∧
        p'.allDst = p.allDst ∧ p'.rankDst = p.allDst + p.paddedRankSize * 1 ∧
          (s 1).gathered.length = 1 ∧ 1 ≤ (s 0).sent.length := by
  have hplay : (exec (Ranks.next twoPasses twoBackends fun _ o => o)
      (twoPosts 1 ++ [(1, .send)] ++ twoPosts 0
        ++ [(0, .copy), (0, .send), (0, .receive), (1, .receive), (1, .send)])
      (twoPasses.ranks twoBackends (fun _ => List.range 1) fun _ => ⟨fun _ => 0, fun _ => 0⟩)).any
        (fun s => decide ((s 1).gathered.length = 1) &&
          ((s 0).calls[1]?.isSome && (s 1).calls[1]?.isSome)) = true := by
    decide +kernel
  obtain ⟨s, hrun, hs⟩ := Run.exists_of_exec hplay
  obtain ⟨hgathered, hs⟩ := Bool.and_eq_true_iff.mp hs
  obtain ⟨hp, hp'⟩ := Bool.and_eq_true_iff.mp hs
  obtain ⟨p, hp⟩ := Option.isSome_iff_exists.mp hp
  obtain ⟨p', hp'⟩ := Option.isSome_iff_exists.mp hp'
  have hgathered := of_decide_eq_true hgathered
  have h₀ : 0 < twoPasses.args.worldSize := by decide
  have h₁ : 1 < twoPasses.args.worldSize := by decide
  obtain ⟨hcalls, -, -⟩ :=
    Load.gathers_match twoPasses twoBackends (fun _ => List.range 1) _ _ hrun h₀ h₁
  obtain ⟨-, hover, -⟩ :=
    Load.gathers_match twoPasses twoBackends (fun _ => List.range 1) _ _ hrun h₁ h₀
  obtain ⟨hid, hid', hdst, -, hplace⟩ := hcalls 1 p p' hp hp'
  exact ⟨s, p, p', hrun, hp, hp', hid, hid', hdst, hplace, hgathered, hgathered ▸ hover⟩

end InstantTensor
